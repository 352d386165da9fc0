import SemanticIndex.Proofs.Rpc.Dispatch

namespace SemanticIndex.Rpc

theorem Input.eq_of_call? {x : Input} {id : Json} {method : String}
    (h : x.call? = some (id, method)) : ∃ params, x = .message (.request id method params) := by
  cases x with
  | garbled => cases h
  | blank => cases h
  | malformed text => cases h
  | message m =>
    cases m with
    | request id method params =>
      cases h
      exact ⟨params, rfl⟩
    | notification method params => cases h
    | response => cases h
    | invalid id => cases h

def Input.Ends (x : Input) : Prop := x = .garbled ∨ ∃ params, x = .message (.notification "exit" params)

theorem Input.ending?_isSome {code : Nat} {x : Input} : (x.ending? code).isSome = true ↔ x.Ends := by
  cases x with
  | garbled => simp [ending?, Ends]
  | blank => simp [ending?, Ends]
  | malformed text => simp [ending?, Ends]
  | message m =>
    cases m with
    | notification method params =>
      by_cases hexit : method = "exit"
      · simp [ending?, Ends, hexit]
      · simp [ending?, Ends, hexit]
    | request id method params => simp [ending?, Ends]
    | response => simp [ending?, Ends]
    | invalid id => simp [ending?, Ends]

def resultMessage (id result : Json) : Json :=
  .object [("jsonrpc", .string "2.0"), ("id", id), ("result", result)]

def errorMessage (id : Json) (code : Int) (text : String) : Json :=
  .object [("jsonrpc", .string "2.0"), ("id", id),
    ("error", .object [("code", .int code), ("message", .string text)])]

def due (complaint : List Char → String) (ended : Option Answer) : Input → List Json
  | .malformed text => [errorMessage .null (-32700) (complaint text)]
  | .message (.invalid id) => [errorMessage id (-32600) "Message has no method"]
  | .message (.request id method _) =>
      match ended with
      | none => []
      | some (.result value) => [resultMessage id value]
      | some (.refused fault) => [errorMessage id fault.code fault.message]
      | some .crashed => [errorMessage id (-32603) ("Internal error in " ++ method)]
  | .message (.notification _ _) => []
  | .message .response => []
  | .blank => []
  | .garbled => []

theorem Input.inline_eq (complaint : List Char → String) (x : Input) :
    x.inline complaint = due complaint none x := by
  cases x with
  | garbled => rfl
  | blank => rfl
  | malformed text => rfl
  | message m => cases m <;> rfl

theorem due_of_call? {x : Input} {t : Task} (h : x.call? = some t.call)
    (complaint : List Char → String) (answer : Answer) : due complaint none x = [] ∧
      due complaint (some answer) x = [(Connection.replyTo t.id t.method answer).toJson] := by
  obtain ⟨params, rfl⟩ := Input.eq_of_call? h
  cases answer <;> exact ⟨rfl, rfl⟩

theorem length_due_le (complaint : List Char → String) (ended : Option Answer) (x : Input) :
    (due complaint ended x).length ≤ 1 := by
  cases x with
  | garbled => simp [due]
  | blank => simp [due]
  | malformed text => simp [due]
  | message m =>
    cases m with
    | request id method params =>
      cases ended with
      | none => simp [due]
      | some answer => cases answer <;> simp [due]
    | notification method params => simp [due]
    | response => simp [due]
    | invalid id => simp [due]

theorem getElem?_take_succ {α : Type} (xs : List α) (n k : Nat) :
    (xs.take (n + 1))[k]? = if k = n then xs[n]? else (xs.take n)[k]? := by
  simp only [List.getElem?_take]
  by_cases hk : k = n
  · simp [hk]
  · have hlt : k < n + 1 ↔ k < n := by omega
    simp [hk, hlt]

namespace Dispatcher

def outcome? (d : Dispatcher) (k : Nat) : Option Answer := d.reached Progress.answer? k

def owed (complaint : List Char → String) (input : List (List UInt8)) (d : Dispatcher) (k : Nat) :
    List Json :=
  ((input.take d.read)[k]?.map fun bytes => due complaint (d.outcome? k) (Input.of bytes)).getD []

structure Answering (complaint : List Char → String) (input : List (List UInt8)) (d : Dispatcher) :
    Prop where
  tasks : ∀ k, (d.task? k).map Task.call =
    (input.take d.read)[k]?.bind fun bytes => (Input.of bytes).call?
  replies : ∀ k, d.repliesTo k = d.owed complaint input k ∨ d.writing ≠ .going ∧ d.repliesTo k = []

structure Printing (d : Dispatcher) : Prop where
  taken_le : d.taken ≤ d.queue.length
  written : d.output ++ d.pending = (d.queue.take d.taken).flatMap fun m => lineOf m.2

structure Reading (input : List (List UInt8)) (d : Dispatcher) : Prop where
  read_le : d.read ≤ input.length
  onward : ∀ k bytes, input[k]? = some bytes → (Input.of bytes).Ends →
    d.read ≤ k ∨ d.read = k + 1 ∧ d.ending.isSome = true
  ended : d.ending.isSome = true → d.read = input.length ∨
    ∃ k bytes, d.read = k + 1 ∧ input[k]? = some bytes ∧ (Input.of bytes).Ends
  stopped : d.writing = .stopped → d.ending.isSome = true

variable {complaint : List Char → String} {input : List (List UInt8)} {d p q : Dispatcher} {e : Event}

section Answering

theorem answering_start : start.Answering complaint input where
  tasks k := by simp [start, task?]
  replies k := .inl (by simp [start, repliesTo, owed])

theorem Answering.task?_read (h : d.Answering complaint input) : d.task? d.read = none := by
  have hread := h.tasks d.read
  rw [List.getElem?_take_eq_none (Nat.le_refl _)] at hread
  exact Option.map_eq_none_iff.mp hread

theorem Answering.repliesTo_of_le (h : d.Answering complaint input) {k : Nat} (hk : d.read ≤ k) :
    d.repliesTo k = [] := by
  have howed : d.owed complaint input k = [] := by simp [owed, List.getElem?_take_eq_none hk]
  rcases h.replies k with hreplies | ⟨-, hreplies⟩
  · exact hreplies.trans howed
  · exact hreplies

theorem owed_accept {bytes : List UInt8} (hline : input[d.read]? = some bytes) (code k : Nat) :
    (d.accept complaint code (Input.of bytes)).owed complaint input k =
      if k = d.read then due complaint (d.outcome? k) (Input.of bytes)
      else d.owed complaint input k := by
  rw [owed, outcome?, reached_accept d rfl, accept, post_read, getElem?_take_succ]
  split
  · simp [hline, outcome?]
  · rfl

theorem Answering.accept (h : d.Answering complaint input) {bytes : List UInt8}
    (hline : input[d.read]? = some bytes) (code : Nat) :
    (d.accept complaint code (Input.of bytes)).Answering complaint input where
  tasks k := by
    rw [task?_accept, Dispatcher.accept, post_read, getElem?_take_succ]
    split
    · next hk =>
      rw [hk, h.task?_read, hline]
      simp [Task.call, Function.comp_def]
    · simpa using h.tasks k
  replies k := by
    rw [owed_accept hline, Dispatcher.accept, repliesTo_post, post_writing]
    by_cases hk : k = d.read
    · have hnone : d.outcome? d.read = none := by rw [outcome?, reached, h.task?_read]; rfl
      have hbefore : d.repliesTo d.read = [] := h.repliesTo_of_le (Nat.le_refl _)
      by_cases hgoing : d.writing = .going
      · left
        rw [if_pos ⟨hgoing, hk.symm⟩, if_pos hk, hk, hnone, ← Input.inline_eq]
        exact hbefore ▸ List.nil_append _
      · right
        rw [if_neg (fun hboth => hgoing hboth.1), hk]
        exact ⟨hgoing, hbefore⟩
    · rw [if_neg (fun hboth => hk hboth.2.symm), if_neg hk]
      exact h.replies k

theorem Answering.tasks_advance (h : d.Answering complaint input) (k : Nat) (progress : Progress) :
    ∀ j, ((d.advance k progress).task? j).map Task.call =
      (input.take d.read)[j]?.bind fun bytes => (Input.of bytes).call? := by
  intro j
  rw [task?_advance, ← h.tasks j, Option.map_map]
  congr 1
  funext t
  dsimp only [Function.comp, Task.call]
  split <;> rfl

theorem owed_advance {k : Nat} {t : Task} (ht : d.task? k = some t) (progress : Progress) (j : Nat) :
    (d.advance k progress).owed complaint input j = if j = k then
      ((input.take d.read)[k]?.map fun bytes => due complaint progress.answer? (Input.of bytes)).getD []
      else d.owed complaint input j := by
  rw [owed, outcome?, reached_advance ht]
  split
  · next hj => subst hj; rfl
  · rfl

theorem owed_post (d : Dispatcher) (k : Nat) (ms : List Json) (j : Nat) :
    (d.post k ms).owed complaint input j = d.owed complaint input j := by
  simp [owed, outcome?]

theorem Answering.settle (h : d.Answering complaint input) {k : Nat} {t : Task} (answer : Answer)
    (ht : d.task? k = some t) (hrunning : t.progress = .running) :
    (d.advance k (.settled answer)).Answering complaint input where
  tasks := h.tasks_advance k _
  replies j := by
    have howed :
        (d.advance k (.settled answer)).owed complaint input j = d.owed complaint input j := by
      rw [owed_advance ht]
      split
      · next hj => simp [owed, outcome?, reached, hj, ht, hrunning, Progress.answer?]
      · rfl
    rw [howed]
    exact h.replies j

theorem Answering.send (h : d.Answering complaint input) {k : Nat} {t : Task} {answer : Answer}
    (ht : d.task? k = some t) (hsettled : t.progress = .settled answer) :
    ((d.advance k (.finished answer)).post k
      [(Connection.replyTo t.id t.method answer).toJson]).Answering complaint input where
  tasks j := by
    rw [task?_post, post_read]
    exact h.tasks_advance k _ j
  replies j := by
    rw [owed_post, owed_advance ht, repliesTo_post, post_writing]
    by_cases hj : j = k
    · subst hj
      obtain ⟨bytes, hbytes, hcall⟩ : ∃ bytes, (input.take d.read)[j]? = some bytes ∧
          (Input.of bytes).call? = some t.call := by
        rw [← Option.bind_eq_some_iff, ← h.tasks j, ht]
        rfl
      obtain ⟨hnone, hsome⟩ := due_of_call? hcall complaint answer
      have howed : d.owed complaint input j = [] := by
        simp [owed, outcome?, reached, hbytes, ht, hsettled, Progress.answer?, hnone]
      have hbefore : d.repliesTo j = [] := by
        rcases h.replies j with hreplies | ⟨-, hreplies⟩
        · exact hreplies.trans howed
        · exact hreplies
      by_cases hgoing : d.writing = .going
      · left
        rw [if_pos ⟨hgoing, rfl⟩, if_pos rfl, hbytes]
        exact (congrArg (· ++ _) hbefore).trans hsome.symm
      · right
        rw [if_neg (fun hboth => hgoing hboth.1)]
        exact ⟨hgoing, hbefore⟩
    · rw [if_neg (fun hboth => hj hboth.2.symm), if_neg hj]
      exact h.replies j

theorem Answering.step (h : d.Answering complaint input) (hstep : Step complaint input e d p) :
    p.Answering complaint input := by
  cases hstep with
  | read code hgoing hline hx => exact hx ▸ h.accept hline code
  | close code hgoing hend => exact ⟨h.tasks, h.replies⟩
  | settle answer ht hrunning => exact h.settle answer ht hrunning
  | send ht hsettled => exact h.send ht hsettled
  | take hgoing hpending hnext => exact ⟨h.tasks, h.replies⟩
  | write count hgoing => exact ⟨h.tasks, h.replies⟩
  | fail hgoing =>
    exact ⟨h.tasks, fun k => (h.replies k).imp_right fun ⟨hnot, _⟩ => absurd hgoing hnot⟩
  | stop hgoing hended =>
    exact ⟨h.tasks, fun k => (h.replies k).imp_right fun ⟨hnot, _⟩ => absurd hgoing hnot⟩

end Answering

section Printing

theorem printing_start : start.Printing := ⟨Nat.le_refl _, rfl⟩

theorem Printing.post (h : d.Printing) (k : Nat) (ms : List Json) : (d.post k ms).Printing := by
  refine ⟨?_, ?_⟩
  · rw [post_taken, queue_post, List.length_append]
    exact Nat.le_add_right_of_le h.taken_le
  · rw [post_output, post_pending, post_taken, queue_post, List.take_append_of_le_length h.taken_le]
    exact h.written

theorem Printing.step (h : d.Printing) (hstep : Step complaint input e d p) : p.Printing := by
  cases hstep with
  | read code hgoing hline hx =>
    refine Printing.post ?_ _ _
    exact ⟨h.taken_le, h.written⟩
  | close code hgoing hend => exact ⟨h.taken_le, h.written⟩
  | settle answer ht hrunning => exact ⟨h.taken_le, h.written⟩
  | send ht hsettled =>
    refine Printing.post ?_ _ _
    exact ⟨h.taken_le, h.written⟩
  | take hgoing hpending hnext =>
    obtain ⟨hlt, hget⟩ := List.getElem?_eq_some_iff.mp hnext
    refine ⟨hlt, ?_⟩
    have hwritten := h.written
    rw [hpending, List.append_nil] at hwritten
    simp [List.take_add_one, hnext, hwritten]
  | write count hgoing =>
    refine ⟨h.taken_le, ?_⟩
    rw [← h.written, List.append_assoc, List.take_append_drop]
  | fail hgoing => exact ⟨h.taken_le, h.written⟩
  | stop hgoing hended => exact ⟨h.taken_le, h.written⟩

theorem Printing.output_leads (h : d.Printing) : d.output <+: d.queue.flatMap fun m => lineOf m.2 := by
  have htaken : d.output <+: (d.queue.take d.taken).flatMap fun m => lineOf m.2 := ⟨_, h.written⟩
  refine htaken.trans ?_
  conv_rhs => rw [← List.take_append_drop d.taken d.queue, List.flatMap_append]
  exact List.prefix_append _ _

end Printing

section Reading

theorem reading_start : start.Reading input where
  read_le := Nat.zero_le _
  onward k bytes _ _ := .inl (Nat.zero_le _)
  ended h := by cases h
  stopped h := by cases h

theorem Reading.accept (h : d.Reading input) {bytes : List UInt8} (hgoing : d.ending = none)
    (hline : input[d.read]? = some bytes) (code : Nat) :
    (d.accept complaint code (Input.of bytes)).Reading input := by
  obtain ⟨hlt, -⟩ := List.getElem?_eq_some_iff.mp hline
  refine ⟨?_, fun k other hk hends => ?_, fun hended => ?_, fun hstopped => ?_⟩
  · rw [Dispatcher.accept, post_read]
    exact hlt
  · rw [Dispatcher.accept, post_read, post_ending]
    rcases h.onward k other hk hends with hle | ⟨-, hended⟩
    · by_cases hk' : d.read = k
      · subst hk'
        obtain rfl := Option.some.inj (hline.symm.trans hk)
        exact .inr ⟨rfl, Input.ending?_isSome.mpr hends⟩
      · exact .inl (Nat.lt_of_le_of_ne hle hk')
    · rw [hgoing] at hended
      cases hended
  · rw [Dispatcher.accept, post_ending] at hended
    rw [Dispatcher.accept, post_read]
    exact .inr ⟨d.read, bytes, rfl, hline, Input.ending?_isSome.mp hended⟩
  · rw [Dispatcher.accept, post_writing] at hstopped
    have hended := h.stopped hstopped
    rw [hgoing] at hended
    cases hended

theorem Reading.step (h : d.Reading input) (hstep : Step complaint input e d p) :
    p.Reading input := by
  cases hstep with
  | read code hgoing hline hx => exact hx ▸ h.accept hgoing hline code
  | close code hgoing hend =>
    have hend : d.read = input.length := by
      have := List.getElem?_eq_none_iff.mp hend
      exact Nat.le_antisymm h.read_le this
    refine ⟨h.read_le, fun k bytes hk hends => ?_, fun _ => .inl hend, fun _ => rfl⟩
    exact (h.onward k bytes hk hends).imp_right fun hlast => ⟨hlast.1, rfl⟩
  | settle answer ht hrunning => exact ⟨h.read_le, h.onward, h.ended, h.stopped⟩
  | send ht hsettled =>
    refine ⟨?_, ?_, ?_, ?_⟩ <;> simp only [post_read, post_ending, post_writing]
    · exact h.read_le
    · exact h.onward
    · exact h.ended
    · exact h.stopped
  | take hgoing hpending hnext => exact ⟨h.read_le, h.onward, h.ended, h.stopped⟩
  | write count hgoing => exact ⟨h.read_le, h.onward, h.ended, h.stopped⟩
  | fail hgoing => exact ⟨h.read_le, h.onward, h.ended, nofun⟩
  | stop hgoing hended => exact ⟨h.read_le, h.onward, h.ended, fun _ => hended⟩

end Reading

end Dispatcher

end SemanticIndex.Rpc
