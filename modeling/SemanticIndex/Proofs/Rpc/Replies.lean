import SemanticIndex.Proofs.Rpc.Bookkeeping

namespace SemanticIndex.Rpc

open Dispatcher

variable {complaint : List Char → String} {input : List (List UInt8)}
variable {d p q : Dispatcher} {e : Event} {es : List Event}

section Handling

def Progress.handled? : Progress → Option Answer
  | .running => none
  | .settled answer => some answer
  | .finished answer => some answer

theorem Step.handled_iff (h : Step complaint input e d p) (k : Nat) (answer : Answer) :
    p.reached Progress.handled? k = some answer ↔
      d.reached Progress.handled? k = some answer ∨ e = .settle k answer := by
  cases h with
  | read code hgoing hline hx => simp [reached_accept d (f := Progress.handled?) rfl]
  | @settle _ j t given ht hrunning =>
    rw [reached_advance ht]
    by_cases hk : k = j
    · subst hk
      simp [reached, ht, hrunning, Progress.handled?]
    · simp [hk, Ne.symm hk]
  | @send _ j t given ht hsettled =>
    rw [reached_post, reached_advance ht]
    by_cases hk : k = j
    · subst hk
      simp [reached, ht, hsettled, Progress.handled?]
    · simp [hk]
  | close code hgoing hend => simp [reached, task?]
  | take hgoing hpending hnext => simp [reached, task?]
  | write count hgoing => simp [reached, task?]
  | fail hgoing => simp [reached, task?]
  | stop hgoing hended => simp [reached, task?]

theorem Step.outcome_iff (h : Step complaint input e d p) (k : Nat) :
    (p.outcome? k).isSome = true ↔ (d.outcome? k).isSome = true ∨ e = .send k := by
  unfold outcome?
  cases h with
  | read code hgoing hline hx => simp [reached_accept d (f := Progress.answer?) rfl]
  | @settle _ j t given ht hrunning =>
    rw [reached_advance ht]
    by_cases hk : k = j
    · subst hk
      simp [reached, ht, hrunning, Progress.answer?]
    · simp [hk]
  | @send _ j t given ht hsettled =>
    rw [reached_post, reached_advance ht]
    by_cases hk : k = j
    · subst hk
      simp [Progress.answer?]
    · simp [hk, Ne.symm hk]
  | close code hgoing hend => simp [reached, task?]
  | take hgoing hpending hnext => simp [reached, task?]
  | write count hgoing => simp [reached, task?]
  | fail hgoing => simp [reached, task?]
  | stop hgoing hended => simp [reached, task?]

theorem Runs.handled_iff (h : Runs complaint input es d q) (k : Nat) (answer : Answer) :
    q.reached Progress.handled? k = some answer ↔
      d.reached Progress.handled? k = some answer ∨ Event.settle k answer ∈ es := by
  induction h with
  | nil => simp
  | cons hstep _ ih => rw [ih, hstep.handled_iff, List.mem_cons, or_assoc, eq_comm (b := Event.settle _ _)]

theorem Runs.outcome_iff (h : Runs complaint input es d q) (k : Nat) :
    (q.outcome? k).isSome = true ↔ (d.outcome? k).isSome = true ∨ Event.send k ∈ es := by
  induction h with
  | nil => simp
  | cons hstep _ ih => rw [ih, hstep.outcome_iff, List.mem_cons, or_assoc, eq_comm (b := Event.send _)]

theorem handled_of_outcome {k : Nat} {answer : Answer} (h : d.outcome? k = some answer) :
    d.reached Progress.handled? k = some answer := by
  obtain ⟨t, ht, hanswer⟩ := Option.bind_eq_some_iff.mp h
  refine Option.bind_eq_some_iff.mpr ⟨t, ht, ?_⟩
  cases hprogress : t.progress with
  | running => simp [hprogress, Progress.answer?] at hanswer
  | settled given => simp [hprogress, Progress.answer?] at hanswer
  | finished given => simpa [hprogress, Progress.answer?, Progress.handled?] using hanswer

theorem Runs.outcome?_eq_some (h : Runs complaint input es .start q) {k : Nat} {answer : Answer} :
    q.outcome? k = some answer ↔ Event.settle k answer ∈ es ∧ Event.send k ∈ es := by
  have hhandled := h.handled_iff k
  have houtcome := h.outcome_iff k
  simp only [show start.outcome? k = none from rfl, Option.isSome_none, Bool.false_eq_true, false_or]
    at houtcome
  simp only [show start.reached Progress.handled? k = none from rfl, reduceCtorEq, false_or]
    at hhandled
  rw [← hhandled, ← houtcome]
  constructor
  · intro hq
    exact ⟨handled_of_outcome hq, by rw [hq]; rfl⟩
  · rintro ⟨hanswer, hsome⟩
    obtain ⟨given, hgiven⟩ := Option.isSome_iff_exists.mp hsome
    rw [hgiven, ← hanswer]
    exact (handled_of_outcome hgiven).symm

end Handling

def Connection.take {σ : Type} (h : Handler σ) (c : Connection σ) : Input → List Reply × Connection σ
  | .garbled => ([], { c with ending := some .unreadable })
  | .blank => ([], c)
  | .malformed text => ([.failure .null (.unreadable (h.complaint text))], c)
  | .message m => c.serve h m

section Serving

variable {σ : Type} {h : Handler σ} {c : Connection σ}

theorem Connection.lineOfBytes_eq (hc : c.ending = none) (bytes : List UInt8) :
    c.lineOfBytes h bytes = c.take h (Input.of bytes) := by
  unfold Connection.lineOfBytes Input.of
  cases Text.decode? bytes with
  | none => simp [hc, Input.ofText, Connection.take]
  | some text =>
    by_cases hblank : (Text.trim text).isEmpty = true
    · simp [hc, Input.ofText, Connection.line, Connection.take, hblank]
    · cases hm : Message.ofText? (Text.trim text) with
      | none => simp [hc, Input.ofText, Connection.line, Connection.take, hblank, hm, Input.ofMessage]
      | some m => simp [hc, Input.ofText, Connection.line, Connection.take, hblank, hm, Input.ofMessage]

theorem Connection.lines_of_ended (hc : c.ending.isSome = true) (rest : List (List UInt8)) :
    c.lines h rest = ([], c) := by
  induction rest with
  | nil => rfl
  | cons bytes rest ih => simp [Connection.lines, Connection.lineOfBytes, hc, ih]

theorem Connection.take_of_call?_none {x : Input} (hx : x.call? = none) (hc : c.ending = none) :
    (c.take h x).1.map Reply.toJson = x.inline h.complaint ∧
      (c.take h x).2.ending = x.ending? (h.exitCode c.state) := by
  cases x with
  | garbled => exact ⟨rfl, rfl⟩
  | blank => exact ⟨rfl, hc⟩
  | malformed text => exact ⟨rfl, hc⟩
  | message m =>
    cases m with
    | request id method params => cases hx
    | notification method params =>
      by_cases hexit : method = "exit"
      · simp [Connection.take, Connection.serve, Input.inline, Input.ending?, hexit]
      · simp [Connection.take, Connection.serve, Input.inline, Input.ending?, hexit, hc]
    | response => exact ⟨rfl, hc⟩
    | invalid id => exact ⟨rfl, hc⟩

theorem runs_request (ha : d.Answering h.complaint input) (hwriting : d.writing = .going)
    (hd : d.ending = none) {bytes : List UInt8} (hline : input[d.read]? = some bytes) {id params : Json} {method : String}
    (hx : Input.of bytes = .message (.request id method params)) (answer : Answer) :
    ∃ es q, Runs h.complaint input es d q ∧ q.read = d.read + 1 ∧ q.writing = .going ∧
      q.ending = none ∧ q.queue = d.queue ++ [(d.read, (Connection.replyTo id method answer).toJson)] := by
  let read := d.accept h.complaint 0 (.message (.request id method params))
  let settled := read.advance d.read (.settled answer)
  have hnew : read.task? d.read = some ⟨d.read, id, method, .running⟩ := by
    simp [read, task?_accept, ha.task?_read, Input.call?]
  have hsettled : settled.task? d.read = some ⟨d.read, id, method, .settled answer⟩ := by
    simp [settled, task?_advance, hnew]
  refine ⟨_, _, .cons (.read 0 hd hline hx) (.cons (.settle answer hnew rfl)
    (.cons (.send hsettled rfl) .nil)), ?_, ?_, ?_, ?_⟩
  all_goals simp [advance, accept, post, hwriting, Input.inline, Input.ending?]

theorem runs_line (ha : d.Answering h.complaint input) (hwriting : d.writing = .going)
    (hd : d.ending = none) (hc : c.ending = none) {bytes : List UInt8} (hline : input[d.read]? = some bytes) :
    ∃ es q, Runs h.complaint input es d q ∧ q.read = d.read + 1 ∧ q.writing = .going ∧
      q.ending = (c.lineOfBytes h bytes).2.ending ∧
      q.queue.map Prod.snd =
        d.queue.map Prod.snd ++ (c.lineOfBytes h bytes).1.map Reply.toJson := by
  rw [Connection.lineOfBytes_eq hc]
  cases hcall : (Input.of bytes).call? with
  | none =>
    obtain ⟨hreplies, hending⟩ := Connection.take_of_call?_none (h := h) hcall hc
    refine ⟨_, _, .cons (.read (h.exitCode c.state) hd hline rfl) .nil, by simp [accept],
      by simp [accept, hwriting], by simp [accept, hending], ?_⟩
    rw [hreplies]
    simp [accept, post, hwriting, Function.comp_def]
  | some call =>
    obtain ⟨id, method⟩ := call
    obtain ⟨params, hx⟩ := Input.eq_of_call? hcall
    obtain ⟨es, q, hruns, hread, hgoing, hending, hqueue⟩ :=
      runs_request ha hwriting hd hline hx (h.request c.state method params).1
    refine ⟨es, q, hruns, hread, hgoing, ?_, ?_⟩
    · rw [hx, hending]
      exact hc.symm
    · rw [hx, hqueue, List.map_append]
      rfl

theorem runs_lines (front rest : List (List UInt8)) (hinput : input = front ++ rest)
    (ha : d.Answering h.complaint input) (hwriting : d.writing = .going) (hd : d.ending = c.ending)
    (hread : c.ending = none → d.read = front.length) :
    ∃ es q, Runs h.complaint input es d q ∧ q.writing = .going ∧
      q.ending = (c.lines h rest).2.ending ∧ (q.ending = none → q.read = input.length) ∧
      q.queue.map Prod.snd = d.queue.map Prod.snd ++ (c.lines h rest).1.map Reply.toJson := by
  induction rest generalizing front c d with
  | nil =>
    refine ⟨_, _, .nil, hwriting, hd, fun hnone => ?_, (List.append_nil _).symm⟩
    rw [hread (hd ▸ hnone), hinput, List.append_nil]
  | cons bytes rest ih =>
    cases hc : c.ending with
    | some ending =>
      rw [Connection.lines_of_ended (by rw [hc]; rfl)]
      refine ⟨_, _, .nil, hwriting, hd, fun hnone => ?_, (List.append_nil _).symm⟩
      rw [hd, hc] at hnone
      cases hnone
    | none =>
      have hline : input[d.read]? = some bytes := by simp [hinput, hread hc]
      obtain ⟨es, p, hruns, hnext, hgoing, hending, hqueue⟩ :=
        runs_line (h := h) ha hwriting (hd.trans hc) hc hline
      obtain ⟨es', q, hmore, hgoing', hending', hall, hqueue'⟩ :=
        ih (front ++ [bytes]) (c := (c.lineOfBytes h bytes).2) (d := p) (by simp [hinput])
          (hruns.preserves Answering.step ha) hgoing hending (fun _ => by simp [hnext, hread hc])
      refine ⟨es ++ es', q, hruns.append hmore, hgoing', hending', hall, ?_⟩
      rw [hqueue', hqueue, List.append_assoc, ← List.map_append]
      rfl

theorem exists_runs_serving (h : Handler σ) (state : σ) (input : List (List UInt8)) :
    let served := (Connection.start state).lines h input
    ∃ es q, Runs h.complaint input es .start q ∧ q.queue.map Prod.snd = served.1.map Reply.toJson ∧
      q.ending = some served.2.close := by
  intro served
  obtain ⟨es, q, hruns, hgoing, hending, hall, hqueue⟩ :=
    runs_lines (h := h) (c := .start state) [] input rfl answering_start rfl rfl (fun _ => rfl)
  cases hq : q.ending with
  | some ending =>
    refine ⟨es, q, hruns, hqueue, ?_⟩
    rw [hq, Connection.close, ← hending, hq]
    rfl
  | none =>
    have hclose : Step h.complaint input (.read 0) q { q with ending := some (.exit 1) } :=
      .close 0 hq (by simp [hall hq])
    refine ⟨_, _, hruns.append (.cons hclose .nil), hqueue, ?_⟩
    rw [Connection.close, ← hending, hq]
    rfl

end Serving

structure Answered (complaint : List Char → String) (input : List (List UInt8))
    (events : List Event) (s : Dispatcher) : Prop where
  outcomes : ∀ k answer, s.outcome? k = some answer ↔
    Event.settle k answer ∈ events ∧ Event.send k ∈ events
  tasks : ∀ k bytes id method params, k < s.read → input[k]? = some bytes →
    Input.of bytes = .message (.request id method params) →
    ∃ t, s.task? k = some t ∧ t.id = id ∧ t.method = method
  answers : s.ending = none → Event.fail ∉ events → ∀ k bytes, k < s.read → input[k]? = some bytes →
    s.repliesTo k = due complaint (s.outcome? k) (Input.of bytes)
  only : ∀ k, s.repliesTo k = [] ∨ ∃ bytes, k < s.read ∧ input[k]? = some bytes ∧
    s.repliesTo k = due complaint (s.outcome? k) (Input.of bytes)
  silent : ∀ j k bytes, j < k → input[j]? = some bytes → (Input.of bytes).Ends → s.repliesTo k = []
  ended : s.ending.isSome = true → s.read = input.length ∨
    ∃ k bytes, s.read = k + 1 ∧ input[k]? = some bytes ∧ (Input.of bytes).Ends
  printed : s.output <+: s.queue.flatMap fun m => lineOf m.2

namespace Dispatcher

theorem owed_of_lt {k : Nat} {bytes : List UInt8} (hk : k < d.read) (hline : input[k]? = some bytes) :
    d.owed complaint input k = due complaint (d.outcome? k) (Input.of bytes) := by
  simp [owed, hk, hline]

theorem Answering.only (h : d.Answering complaint input) (k : Nat) : d.repliesTo k = [] ∨ ∃ bytes,
    k < d.read ∧ input[k]? = some bytes ∧
      d.repliesTo k = due complaint (d.outcome? k) (Input.of bytes) := by
  rcases h.replies k with hreplies | ⟨-, hreplies⟩
  · cases hline : (input.take d.read)[k]? with
    | none => exact .inl (by simp [hreplies, owed, hline])
    | some bytes =>
      obtain ⟨hk, hbytes⟩ : k < d.read ∧ input[k]? = some bytes := by
        rw [List.getElem?_take] at hline
        split at hline
        · next hk => exact ⟨hk, hline⟩
        · cases hline
      exact .inr ⟨bytes, hk, hbytes, hreplies.trans (owed_of_lt hk hbytes)⟩
  · exact .inl hreplies

theorem Answering.length_repliesTo (h : d.Answering complaint input) (k : Nat) :
    (d.repliesTo k).length ≤ 1 := by
  rcases h.only k with hnone | ⟨bytes, -, -, hdue⟩
  · simp [hnone]
  · exact hdue ▸ length_due_le _ _ _

end Dispatcher

theorem lineOf_eq (message : Json) : lineOf message = Text.utf8 message.render ++ [10] ∧
    10 ∉ Text.utf8 message.render :=
  ⟨rfl, (Json.oneLine_render message).not_mem_utf8⟩

theorem Runs.writing_going (h : Runs complaint input es .start d) (hgoing : d.ending = none)
    (hfail : Event.fail ∉ es) : d.writing = .going := by
  have hreading : d.Reading input := h.preserves Reading.step reading_start
  cases hw : d.writing with
  | going => rfl
  | broken => exact absurd hw (h.unbroken hfail nofun)
  | stopped =>
    have hended := hreading.stopped hw
    rw [hgoing] at hended
    cases hended

theorem Runs.answered (h : Runs complaint input es .start d) : Answered complaint input es d := by
  have ha : d.Answering complaint input := h.preserves Answering.step answering_start
  have hr : d.Reading input := h.preserves Reading.step reading_start
  have hp : d.Printing := h.preserves Printing.step printing_start
  refine ⟨fun k answer => h.outcome?_eq_some, ?_, ?_, ha.only, ?_, hr.ended, hp.output_leads⟩
  · intro k bytes id method params hk hline hx
    have hcall : (d.task? k).map Task.call = some (id, method) := by
      rw [ha.tasks k]
      simp [hk, hline, hx, Input.call?]
    obtain ⟨t, ht, hcall⟩ := Option.map_eq_some_iff.mp hcall
    exact ⟨t, ht, congrArg Prod.fst hcall, congrArg Prod.snd hcall⟩
  · intro hgoing hfail k bytes hk hline
    rcases ha.replies k with hreplies | ⟨hnot, -⟩
    · exact hreplies.trans (owed_of_lt hk hline)
    · exact absurd (h.writing_going hgoing hfail) hnot
  · intro j k bytes hjk hline hends
    refine ha.repliesTo_of_le ?_
    rcases hr.onward j bytes hline hends with hle | ⟨heq, -⟩
    · omega
    · omega

theorem one_reply_per_request (input : List (List UInt8)) :
    (∀ (σ : Type) (h : Handler σ) (state : σ), ∃ events s, Runs h.complaint input events .start s ∧
      s.queue.map Prod.snd = ((Connection.start state).lines h input).1.map Reply.toJson ∧
      s.ending = some ((Connection.start state).lines h input).2.close) ∧
    (∀ message, lineOf message = Text.utf8 message.render ++ [10] ∧
      10 ∉ Text.utf8 message.render) ∧
    ∀ complaint events s, Runs complaint input events .start s →
      Answered complaint input events s ∧ ∀ later s', Runs complaint input later s s' →
        ∀ k, s.repliesTo k ≠ [] → s'.repliesTo k = s.repliesTo k := by
  refine ⟨fun σ h state => exists_runs_serving h state input, lineOf_eq,
    fun complaint events s hrun => ⟨hrun.answered, fun later s' hlater k hsome => ?_⟩⟩
  -- There is a message already, and there is never a second one.
  have ha' : s'.Answering complaint input :=
    hlater.preserves Answering.step (hrun.preserves Answering.step answering_start)
  refine ((repliesTo_extends hlater.queue_extends k).eq_of_length_le ?_).symm
  exact Nat.le_trans (ha'.length_repliesTo k) (List.length_pos_iff.mpr hsome)

theorem one_reply_per_request_out_of_order :
    let input := ["\x7b\"id\":1,\"method\":\"a\"\x7d", "\x7b\"id\":2,\"method\":\"b\"\x7d", "oops",
      "\x7b\"id\":7\x7d", "\x7b\"method\":\"exit\"\x7d",
      "\x7b\"id\":3,\"method\":\"c\"\x7d"].map Text.encode
    let complaint : List Char → String := fun _ => "expected value at line 1 column 1"
    let events : List Event := [.read 0, .read 0, .read 0, .settle 1 .crashed, .read 0, .send 1,
      .settle 0 (.result (.bool true)), .send 0, .take, .write 9]
    let later : List Event := [.read 0, .stop]
    ∃ s s', Runs complaint input events .start s ∧ Runs complaint input later s s' ∧
      s'.repliesTo 0 =
        [.object [("jsonrpc", .string "2.0"), ("id", .int 1), ("result", .bool true)]] ∧
      s'.repliesTo 1 = [.object [("jsonrpc", .string "2.0"), ("id", .int 2), ("error",
        .object [("code", .int (-32603)), ("message", .string "Internal error in b")])]] ∧
      s'.repliesTo 2 = [.object [("jsonrpc", .string "2.0"), ("id", .null), ("error",
        .object [("code", .int (-32700)),
          ("message", .string "expected value at line 1 column 1")])]] ∧
      s'.repliesTo 3 = [.object [("jsonrpc", .string "2.0"), ("id", .int 7), ("error",
        .object [("code", .int (-32600)), ("message", .string "Message has no method")])]] ∧
      s'.repliesTo 5 = [] := by
  intro input complaint events later
  have hfirst : Input.of (Text.encode "\x7b\"id\":1,\"method\":\"a\"\x7d") =
      .message (.request (.int 1) "a" .null) := by with_unfolding_all rfl
  have hsecond : Input.of (Text.encode "\x7b\"id\":2,\"method\":\"b\"\x7d") =
      .message (.request (.int 2) "b" .null) := by with_unfolding_all rfl
  have hoops : Input.of (Text.encode "oops") = .malformed "oops".toList := by with_unfolding_all rfl
  have hinvalid : Input.of (Text.encode "\x7b\"id\":7\x7d") = .message (.invalid (.int 7)) := by
    with_unfolding_all rfl
  have hexit : Input.of (Text.encode "\x7b\"method\":\"exit\"\x7d") =
      .message (.notification "exit" .null) := by with_unfolding_all rfl
  obtain ⟨-, -, hall⟩ := one_reply_per_request input
  have hrun : ∃ s, Runs complaint input events .start s ∧ s.ending = none ∧ s.read = 4 ∧
      s.outcome? 0 = some (.result (.bool true)) ∧ s.outcome? 1 = some .crashed ∧
      ∃ s', Runs complaint input later s s' := by
    refine ⟨_, .cons (.read 0 rfl rfl hfirst) <| .cons (.read 0 rfl rfl hsecond) <|
      .cons (.read 0 rfl rfl hoops) <| .cons (.settle .crashed rfl rfl) <|
      .cons (.read 0 rfl rfl hinvalid) <| .cons (.send rfl rfl) <|
      .cons (.settle (.result (.bool true)) rfl rfl) <| .cons (.send rfl rfl) <|
      .cons (.take rfl rfl rfl) <| .cons (.write 9 rfl) .nil, rfl, rfl, rfl, rfl, ?_⟩
    exact ⟨_, .cons (.read 0 rfl rfl hexit) <| .cons (.stop rfl rfl) .nil⟩
  obtain ⟨s, hruns, hgoing, hread, hdone, hcrashed, s', hlater⟩ := hrun
  obtain ⟨hs, hkept⟩ := hall complaint events s hruns
  have hfail : Event.fail ∉ events := by simp [events]
  have hzero : s.repliesTo 0 = [resultMessage (.int 1) (.bool true)] := by
    rw [hs.answers hgoing hfail 0 _ (by omega) rfl, hfirst, hdone]
    rfl
  have hone : s.repliesTo 1 = [errorMessage (.int 2) (-32603) "Internal error in b"] := by
    rw [hs.answers hgoing hfail 1 _ (by omega) rfl, hsecond, hcrashed]
    rfl
  have htwo : s.repliesTo 2 =
      [errorMessage .null (-32700) "expected value at line 1 column 1"] := by
    rw [hs.answers hgoing hfail 2 _ (by omega) rfl, hoops]
    rfl
  have hthree : s.repliesTo 3 = [errorMessage (.int 7) (-32600) "Message has no method"] := by
    rw [hs.answers hgoing hfail 3 _ (by omega) rfl, hinvalid]
    rfl
  refine ⟨s, s', hruns, hlater, ?_, ?_, ?_, ?_, ?_⟩
  · exact (hkept later s' hlater 0 (by simp [hzero])).trans hzero
  · exact (hkept later s' hlater 1 (by simp [hone])).trans hone
  · exact (hkept later s' hlater 2 (by simp [htwo])).trans htwo
  · exact (hkept later s' hlater 3 (by simp [hthree])).trans hthree
  · exact (hall complaint _ s' (hruns.append hlater)).1.silent 4 5 _ (by omega) rfl
      (.inr ⟨.null, hexit⟩)

end SemanticIndex.Rpc
