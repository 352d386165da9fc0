import SemanticIndex.Proofs.Json.OneLine
import SemanticIndex.Rpc.Connection

namespace SemanticIndex.Rpc

inductive Input where
  | garbled
  | blank
  | malformed (text : List Char)
  | message (m : Incoming)

namespace Input

def ofMessage (text : List Char) : Input :=
  match Message.ofText? text with
  | none => .malformed text
  | some m => .message m.incoming

def ofText : Option (List Char) → Input
  | none => .garbled
  | some text => if (Text.trim text).isEmpty then .blank else ofMessage (Text.trim text)

def of (bytes : List UInt8) : Input := ofText (Text.decode? bytes)

def call? : Input → Option (Json × String)
  | .message (.request id method _) => some (id, method)
  | _ => none

def inline (complaint : List Char → String) : Input → List Json
  | .malformed text => [(Reply.failure .null (.unreadable (complaint text))).toJson]
  | .message (.invalid id) => [(Reply.failure id (.invalidRequest "Message has no method")).toJson]
  | _ => []

def ending? (code : Nat) : Input → Option Ending
  | .garbled => some .unreadable
  | .message (.notification method _) => if method = "exit" then some (.exit code) else none
  | _ => none

end Input

inductive Progress where
  | running
  | settled (answer : Answer)
  | finished (answer : Answer)

def Progress.answer? : Progress → Option Answer
  | .finished answer => some answer
  | _ => none

structure Task where
  line : Nat
  id : Json
  method : String
  progress : Progress

def Task.call (t : Task) : Json × String := (t.id, t.method)

inductive Writing where
  | going
  | broken
  | stopped
  deriving DecidableEq, Repr

structure Dispatcher where
  read : Nat
  tasks : List Task
  queue : List (Nat × Json)
  taken : Nat
  pending : List UInt8
  output : List UInt8
  writing : Writing
  ending : Option Ending

namespace Dispatcher

def start : Dispatcher := ⟨0, [], [], 0, [], [], .going, none⟩

def task? (d : Dispatcher) (k : Nat) : Option Task := d.tasks.find? (·.line = k)

def advance (d : Dispatcher) (k : Nat) (progress : Progress) : Dispatcher :=
  { d with tasks := d.tasks.map fun t => if t.line = k then { t with progress := progress } else t }

def post (d : Dispatcher) (k : Nat) (messages : List Json) : Dispatcher :=
  if d.writing = .going then { d with queue := d.queue ++ messages.map fun m => (k, m) } else d

def accept (complaint : List Char → String) (d : Dispatcher) (code : Nat) (x : Input) :
    Dispatcher :=
  post { d with
    read := d.read + 1
    tasks := d.tasks ++ x.call?.toList.map fun call => ⟨d.read, call.1, call.2, .running⟩
    ending := x.ending? code } d.read (x.inline complaint)

end Dispatcher

def lineOf (message : Json) : List UInt8 := Text.utf8 message.render ++ [10]

inductive Event where
  | read (exitCode : Nat)
  | settle (line : Nat) (answer : Answer)
  | send (line : Nat)
  | take
  | write (count : Nat)
  | fail
  | stop

inductive Step (complaint : List Char → String) (input : List (List UInt8)) :
    Event → Dispatcher → Dispatcher → Prop where
  | read {d : Dispatcher} {bytes : List UInt8} {x : Input} (code : Nat) (hgoing : d.ending = none)
      (hline : input[d.read]? = some bytes) (hx : Input.of bytes = x) :
      Step complaint input (.read code) d (d.accept complaint code x)
  | close {d : Dispatcher} (code : Nat) (hgoing : d.ending = none) (hend : input[d.read]? = none) :
      Step complaint input (.read code) d { d with ending := some (.exit 1) }
  | settle {d : Dispatcher} {k : Nat} {t : Task} (answer : Answer) (ht : d.task? k = some t)
      (hrunning : t.progress = .running) :
      Step complaint input (.settle k answer) d (d.advance k (.settled answer))
  | send {d : Dispatcher} {k : Nat} {t : Task} {answer : Answer} (ht : d.task? k = some t)
      (hsettled : t.progress = .settled answer) :
      Step complaint input (.send k) d ((d.advance k (.finished answer)).post k
        [(Connection.replyTo t.id t.method answer).toJson])
  | take {d : Dispatcher} {k : Nat} {m : Json} (hgoing : d.writing = .going)
      (hpending : d.pending = []) (hnext : d.queue[d.taken]? = some (k, m)) :
      Step complaint input .take d { d with taken := d.taken + 1, pending := lineOf m }
  | write {d : Dispatcher} (count : Nat) (hgoing : d.writing = .going) :
      Step complaint input (.write count) d { d with
        pending := d.pending.drop count, output := d.output ++ d.pending.take count }
  | fail {d : Dispatcher} (hgoing : d.writing = .going) :
      Step complaint input .fail d { d with writing := .broken }
  | stop {d : Dispatcher} (hgoing : d.writing = .going) (hended : d.ending.isSome = true) :
      Step complaint input .stop d { d with writing := .stopped }

inductive Runs (complaint : List Char → String) (input : List (List UInt8)) :
    List Event → Dispatcher → Dispatcher → Prop where
  | nil {d : Dispatcher} : Runs complaint input [] d d
  | cons {e : Event} {es : List Event} {d p q : Dispatcher} (hstep : Step complaint input e d p)
      (hrest : Runs complaint input es p q) : Runs complaint input (e :: es) d q

namespace Dispatcher

def repliesTo (d : Dispatcher) (k : Nat) : List Json :=
  (d.queue.filter (·.1 = k)).map Prod.snd

section Post

variable (d : Dispatcher) (j : Nat) (ms : List Json)

@[simp] theorem post_read : (d.post j ms).read = d.read := by
  unfold post; split <;> rfl

@[simp] theorem post_taken : (d.post j ms).taken = d.taken := by
  unfold post; split <;> rfl

@[simp] theorem post_pending : (d.post j ms).pending = d.pending := by
  unfold post; split <;> rfl

@[simp] theorem post_output : (d.post j ms).output = d.output := by
  unfold post; split <;> rfl

@[simp] theorem post_writing : (d.post j ms).writing = d.writing := by
  unfold post; split <;> rfl

@[simp] theorem post_ending : (d.post j ms).ending = d.ending := by
  unfold post; split <;> rfl

@[simp] theorem task?_post (k : Nat) : (d.post j ms).task? k = d.task? k := by
  unfold post; split <;> rfl

theorem queue_post : (d.post j ms).queue =
    d.queue ++ if d.writing = .going then ms.map fun m => (j, m) else [] := by
  unfold post
  split
  · rfl
  · exact (List.append_nil _).symm

theorem repliesTo_post (k : Nat) : (d.post j ms).repliesTo k =
    if d.writing = .going ∧ j = k then d.repliesTo k ++ ms else d.repliesTo k := by
  rw [repliesTo, queue_post]
  by_cases hgoing : d.writing = .going
  · by_cases hk : j = k
    · simp [repliesTo, hgoing, hk, List.filter_map, Function.comp_def]
    · simp [repliesTo, hgoing, hk, List.filter_map, Function.comp_def]
  · simp [repliesTo, hgoing]

end Post

section Tasks

variable (d : Dispatcher)

theorem line_of_task? {d : Dispatcher} {k : Nat} {t : Task} (h : d.task? k = some t) : t.line = k := by
  simpa using List.find?_some h

theorem task?_advance (k : Nat) (p : Progress) (j : Nat) : (d.advance k p).task? j =
    (d.task? j).map fun t => if j = k then { t with progress := p } else t := by
  have hline (t : Task) : (if t.line = k then { t with progress := p } else t).line = t.line := by
    split <;> rfl
  rw [task?, advance, List.find?_map]
  simp only [Function.comp_def, hline]
  refine Option.map_congr fun t ht => ?_
  rw [line_of_task? ht]

theorem task?_accept (complaint : List Char → String) (code : Nat) (x : Input) (k : Nat) :
    (d.accept complaint code x).task? k = (d.task? k).or (if k = d.read then
      x.call?.map fun call => ⟨d.read, call.1, call.2, .running⟩ else none) := by
  rw [accept, task?_post, task?, List.find?_append]
  congr 1
  cases x.call? with
  | none => simp
  | some call => simp [eq_comm]

def reached (f : Progress → Option Answer) (k : Nat) : Option Answer :=
  (d.task? k).bind fun t => f t.progress

variable {f : Progress → Option Answer}

@[simp] theorem reached_post (j : Nat) (ms : List Json) (k : Nat) :
    (d.post j ms).reached f k = d.reached f k := by
  simp [reached]

theorem reached_accept (hf : f .running = none) (complaint : List Char → String) (code : Nat)
    (x : Input) (k : Nat) : (d.accept complaint code x).reached f k = d.reached f k := by
  rw [reached, task?_accept, reached]
  cases d.task? k with
  | some t => rfl
  | none =>
    split
    · cases x.call? with
      | none => rfl
      | some call => exact hf
    · rfl

theorem reached_advance {d : Dispatcher} {k : Nat} {t : Task} (ht : d.task? k = some t)
    (progress : Progress) (j : Nat) :
    (d.advance k progress).reached f j = if j = k then f progress else d.reached f j := by
  rw [reached, task?_advance]
  split
  · next hj => simp [hj, ht]
  · simp [reached]

end Tasks

end Dispatcher

section Runs

open Dispatcher

variable {complaint : List Char → String} {input : List (List UInt8)}
variable {d p q : Dispatcher} {e : Event} {es : List Event}

theorem Step.queue_extends (h : Step complaint input e d p) : d.queue <+: p.queue := by
  cases h with
  | read code hgoing hline hx =>
    rw [accept, queue_post]
    exact List.prefix_append _ _
  | send ht hsettled =>
    rw [queue_post]
    exact List.prefix_append _ _
  | close code hgoing hend => exact List.prefix_rfl
  | settle answer ht hrunning => exact List.prefix_rfl
  | take hgoing hpending hnext => exact List.prefix_rfl
  | write count hgoing => exact List.prefix_rfl
  | fail hgoing => exact List.prefix_rfl
  | stop hgoing hended => exact List.prefix_rfl

theorem Step.unbroken (h : Step complaint input e d p) (he : e ≠ .fail) (hd : d.writing ≠ .broken) :
    p.writing ≠ .broken := by
  cases h with
  | read code hgoing hline hx => simpa [accept] using hd
  | send ht hsettled => simpa [advance] using hd
  | close code hgoing hend => exact hd
  | settle answer ht hrunning => exact hd
  | take hgoing hpending hnext => exact hd
  | write count hgoing => exact hd
  | fail hgoing => exact absurd rfl he
  | stop hgoing hended => nofun

namespace Runs

theorem preserves {P : Dispatcher → Prop} (hP : ∀ {e d p}, P d → Step complaint input e d p → P p)
    (h : Runs complaint input es d q) (hd : P d) : P q := by
  induction h with
  | nil => exact hd
  | cons hstep _ ih => exact ih (hP hd hstep)

theorem queue_extends (h : Runs complaint input es d q) : d.queue <+: q.queue := by
  induction h with
  | nil => exact List.prefix_rfl
  | cons hstep _ ih => exact hstep.queue_extends.trans ih

theorem unbroken (h : Runs complaint input es d q) (hes : Event.fail ∉ es)
    (hd : d.writing ≠ .broken) : q.writing ≠ .broken := by
  induction h with
  | nil => exact hd
  | cons hstep _ ih =>
    rw [List.mem_cons, not_or] at hes
    exact ih hes.2 (hstep.unbroken (Ne.symm hes.1) hd)

theorem append {es' : List Event} (h : Runs complaint input es d p)
    (h' : Runs complaint input es' p q) : Runs complaint input (es ++ es') d q := by
  induction h with
  | nil => exact h'
  | cons hstep _ ih => exact .cons hstep (ih h')

end Runs

theorem Dispatcher.repliesTo_extends (h : d.queue <+: q.queue) (k : Nat) :
    d.repliesTo k <+: q.repliesTo k :=
  (h.filter _).map _

end Runs

end SemanticIndex.Rpc
