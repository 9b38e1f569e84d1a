import Mathlib.Data.List.TakeWhile
import Mathlib.Tactic.ByContra
import Mathlib.Tactic.SplitIfs
import RubyPg.Lib.Method

/-!
# Waiting for notifications and results

`wait_socket_readable` with its callers `wait_for_notify` and `block`, and the calls that go on from
there: `notifies`, `get_result`, `consume_input`. The `schedule` of a session says when which messages come
to the socket; messages wait there, then unread in libpq behind a result nobody has taken, and last in the
queue of `PQnotifies`. Whatever is called in whatever order, every notification is handed out once and in
order (`run_hands_out`), and `wait_for_notify` answers `nil` only at the end of its time
(`wait_for_notify_nil`).
-/

namespace RubyPg.Waiting
set_option autoImplicit false
open Method

/-- A `PGnotify`. -/
structure Notify where
  relname : List UInt8
  bePid : Int
  extra : List UInt8
deriving DecidableEq, Repr

/-- A message of the server: a notification, the end of a result, or `ReadyForQuery`. -/
inductive Message where
  | notify (n : Notify)
  | result (id : Nat)
  | readyForQuery
deriving DecidableEq, Repr

def Message.notification : Message → Option Notify
  | .notify n => some n
  | _ => none

/-- `PGASYNC_IDLE`, `PGASYNC_BUSY`, and `PGASYNC_READY` with the result to be taken. -/
inductive AsyncStatus where
  | idle | busy
  | ready (id : Nat)
deriving DecidableEq, Repr

/-- What wakes up a wait: messages on the socket, or the loss of the connection. -/
inductive Event where
  | arrive (messages : List Message)
  | lose
deriving DecidableEq, Repr

def Event.messages : Event → List Message
  | .arrive messages => messages
  | .lose => []

/-- The connection with what will come to it: after how many microseconds which event. `unsent` is the
number of times a flush still has to wait. -/
structure Session where
  asyncStatus : AsyncStatus := .idle
  queue : List Notify := []
  input : List Message := []
  socket : List Message := []
  lost : Bool := false
  unsent : Nat := 0
  now : Int := 0
  schedule : List (Nat × Event) := []
deriving DecidableEq, Repr

/-- A method raises `PG::ConnectionBad`, or does not come back. -/
inductive Halt where
  | connectionBad | hangs
deriving DecidableEq, Repr

abbrev WaitM := Method Halt Session

/-- `pqParseInput3`: notifications are taken in any state, a result only while one is waited for, and
nothing is read past a result that nobody has taken. -/
def parse : AsyncStatus → List Message → List Notify → AsyncStatus × List Message × List Notify
  | status, [], queue => (status, [], queue)
  | status, .notify n :: rest, queue => parse status rest (queue ++ [n])
  | .busy, .result id :: rest, queue => parse (.ready id) rest queue
  | .busy, .readyForQuery :: rest, queue => parse .idle rest queue
  | .idle, _ :: rest, queue => parse .idle rest queue
  | .ready id, message :: rest, queue => (.ready id, message :: rest, queue)

def Session.parseInput (s : Session) : Session :=
  let (asyncStatus, input, queue) := parse s.asyncStatus s.input s.queue
  { s with asyncStatus, input, queue }

/-- `PQnotifies`, as `notify_readable`. -/
def pqNotifies : WaitM (Option Notify) := fun s =>
  let s := s.parseInput
  match s.queue with
  | [] => (.ok none, s)
  | n :: rest => (.ok (some n), { s with queue := rest })

/-- `!PQisBusy`, as `get_result_readable`. -/
def getResultReadable : WaitM (Option Unit) := fun s =>
  let s := s.parseInput
  (.ok (if s.asyncStatus = .busy then none else some ()), s)

/-- `pgconn_consume_input`. -/
def consumeInput : WaitM Unit := fun s =>
  if s.lost then (.error .connectionBad, s)
  else (.ok (), { s with input := s.input ++ s.socket, socket := [] })

/-- The next event after so long. -/
def Session.happen (s : Session) (delay : Nat) (event : Event) (rest : List (Nat × Event)) : Session :=
  { s with
    now := s.now + delay, schedule := rest
    socket := s.socket ++ event.messages, lost := s.lost || event == .lose }

/-- `rb_io_wait` for a readable socket, and whether it is before the timeout. -/
def rbIoWait (timeout : Option Int) : WaitM Bool := fun s =>
  if s.socket ≠ [] ∨ s.lost = true then (.ok true, s)
  else
    match s.schedule, timeout with
    | [], none => (.error .hangs, s)
    | [], some t => (.ok false, { s with now := s.now + t })
    | (delay, event) :: rest, none => (.ok true, s.happen delay event rest)
    | (delay, event) :: rest, some t =>
      if t < delay then
        (.ok false, { s with now := s.now + t, schedule := ((delay - t).toNat, event) :: rest })
      else (.ok true, s.happen delay event rest)

/-- `pgconn_async_flush`: it waits without a timeout and reads what comes in. -/
def asyncFlush : Nat → WaitM Unit
  | 0 => pure ()
  | unsent + 1 => do
    let _ ← rbIoWait none
    consumeInput
    change fun s => { s with unsent }
    asyncFlush unsent

/-- The loop of `wait_socket_readable` up to `aborttime`; `none` is NULL. -/
def waitLoop {α : Type} (isReadable : WaitM (Option α)) (aborttime : Option Int) : Nat → WaitM (Option α)
  | 0 => raise .hangs
  | fuel + 1 => do
    match ← isReadable with
    | some found => pure (some found)
    | none =>
      let s ← read
      let waittime := aborttime.map (· - s.now)
      if waittime.all (0 ≤ ·) then
        asyncFlush s.unsent
        match ← isReadable with
        | some found => pure (some found)
        | none =>
          if ← rbIoWait waittime then
            consumeInput
            waitLoop isReadable aborttime fuel
          else pure none
      else pure none

/-- `wait_socket_readable`. Every round takes an event of the schedule, but for one that finds the socket
readable from the start. -/
def waitSocketReadable {α : Type} (isReadable : WaitM (Option α)) (timeout : Option Int) : WaitM (Option α) := do
  let s ← read
  waitLoop isReadable (timeout.map (s.now + ·)) (s.schedule.length + 2)

/-- `wait_for_notify`. -/
def waitForNotify (timeout : Option Int) : WaitM (Option Notify) := waitSocketReadable pqNotifies timeout

/-- `block`. -/
def block (timeout : Option Int) : WaitM Bool := do
  let found ← waitSocketReadable getResultReadable timeout
  pure found.isSome

/-- `get_result`: `block`, then `PQgetResult`. -/
def getResult : WaitM (Option Nat) := do
  let _ ← block none
  let s ← read
  match s.asyncStatus with
  | .ready id => do
    change fun s => { s with asyncStatus := .busy }
    pure (some id)
  | _ => pure none

/-- `send_query` on an idle connection: `unsent` says how often its flush will have to wait. -/
def sendQuery (unsent : Nat) : WaitM Unit := change fun s => { s with asyncStatus := .busy, unsent }

/-! ### Nothing is lost -/

/-- The notifications in messages. -/
def notifications (messages : List Message) : List Notify := messages.filterMap Message.notification

/-- The notifications on their way to the program, the oldest first. -/
def Session.coming (s : Session) : List Notify :=
  s.queue ++ (notifications s.input ++ (notifications s.socket ++
    notifications (s.schedule.flatMap fun entry => entry.2.messages)))

@[simp] theorem notifications_append (first second : List Message) :
    notifications (first ++ second) = notifications first ++ notifications second := List.filterMap_append

@[simp] theorem notifications_notify (n : Notify) (rest : List Message) :
    notifications (.notify n :: rest) = n :: notifications rest := rfl

theorem parse_queue (status : AsyncStatus) (input : List Message) (queue : List Notify) :
    (parse status input queue).2.2 ++ notifications (parse status input queue).2.1 = queue ++ notifications input := by
  induction input generalizing status queue with
  | nil => cases status <;> rfl
  | cons message rest ih =>
    cases message with
    | notify n =>
      rw [parse, ih]
      simp
    | result id => cases status <;> first | exact ih _ _ | rfl
    | readyForQuery => cases status <;> first | exact ih _ _ | rfl

theorem parseInput_coming (s : Session) : s.parseInput.coming = s.coming := by
  have same := parse_queue s.asyncStatus s.input s.queue
  unfold Session.coming Session.parseInput
  dsimp only
  rw [← List.append_assoc, same, List.append_assoc]

/-- What a method hands out by returning. -/
def handed {α : Type} (f : α → List Notify) : Except Halt α → List Notify
  | .ok a => f a
  | .error _ => []

/-- What the method hands out is what it takes from the notifications to come. -/
def Hands {α : Type} (f : α → List Notify) (m : WaitM α) : Prop := ∀ s, handed f (m s).1 ++ (m s).2.coming = s.coming

section Hands

variable {α β : Type} {f : β → List Notify}

theorem Hands.bind {m : WaitM α} {k : α → WaitM β} (first : Keeps Session.coming m) (rest : ∀ a, Hands f (k a)) :
    Hands f (m >>= k) := by
  intro s
  have kept := first s
  cases run : m s with
  | mk result t =>
    rw [run] at kept
    cases result with
    | ok a =>
      rw [bind_ok run, rest a t]
      exact kept
    | error e =>
      rw [bind_error run]
      exact kept

/-- A look for something to hand out, and what is done where there is nothing. -/
theorem Hands.look {g : Option α → List Notify} {m : WaitM (Option α)} {k : Option α → WaitM (Option α)} (look : Hands g m)
    (empty : g none = []) (found : ∀ a s, k (some a) s = (.ok (some a), s)) (rest : Hands g (k none)) : Hands g (m >>= k) := by
  intro s
  have here := look s
  cases run : m s with
  | mk result t =>
    rw [run] at here
    cases result with
    | ok a =>
      rw [bind_ok run]
      cases a with
      | none =>
        rw [rest t, ← here, handed, empty]
        rfl
      | some a =>
        rw [found]
        exact here
    | error e =>
      rw [bind_error run]
      exact here

theorem Hands.pure {b : β} (empty : f b = []) : Hands f (Pure.pure b) := by
  intro s
  show f b ++ s.coming = s.coming
  rw [empty]
  rfl

end Hands

theorem pqNotifies_hands : Hands Option.toList pqNotifies := by
  intro s
  rw [← parseInput_coming s]
  unfold pqNotifies
  dsimp only
  cases here : s.parseInput.queue with
  | nil => rfl
  | cons n rest =>
    unfold Session.coming
    rw [here]
    rfl

theorem getResultReadable_keeps : Keeps Session.coming getResultReadable := parseInput_coming

theorem consumeInput_keeps : Keeps Session.coming consumeInput := by
  intro s
  unfold consumeInput
  split
  · rfl
  · simp [Session.coming, notifications]

theorem happen_coming {s : Session} {delay : Nat} {event : Event} {rest : List (Nat × Event)}
    (here : s.schedule = (delay, event) :: rest) : (s.happen delay event rest).coming = s.coming := by
  simp [Session.coming, Session.happen, here]

theorem rbIoWait_keeps (timeout : Option Int) : Keeps Session.coming (rbIoWait timeout) := by
  intro s
  unfold rbIoWait
  split
  · rfl
  · split
    · rfl
    · rfl
    · rename_i here
      exact happen_coming here
    · rename_i delay event rest t here
      split
      · simp [Session.coming, here]
      · exact happen_coming here

theorem asyncFlush_keeps (unsent : Nat) : Keeps Session.coming (asyncFlush unsent) := by
  induction unsent with
  | zero => exact Keeps.pure ()
  | succ unsent ih =>
    refine (rbIoWait_keeps none).bind fun _ => consumeInput_keeps.bind fun _ => ?_
    exact Keeps.bind (Keeps.change fun _ => rfl) fun _ => ih

/-- The loop hands out what its look does. -/
theorem waitLoop_hands {α : Type} {g : Option α → List Notify} {isReadable : WaitM (Option α)} (look : Hands g isReadable)
    (empty : g none = []) (aborttime : Option Int) (fuel : Nat) : Hands g (waitLoop isReadable aborttime fuel) := by
  induction fuel with
  | zero =>
    intro s
    rfl
  | succ fuel ih =>
    unfold waitLoop
    refine look.look empty (fun _ _ => rfl) (Hands.bind (fun _ => rfl) fun s => ?_)
    dsimp only
    split
    · refine Hands.bind (asyncFlush_keeps s.unsent) fun _ => look.look empty (fun _ _ => rfl) ?_
      refine Hands.bind (rbIoWait_keeps _) fun before => ?_
      split
      · exact Hands.bind consumeInput_keeps fun _ => ih
      · exact .pure empty
    · exact .pure empty

/-- A call of the program. -/
inductive Call where
  | notifies
  | waitForNotify (timeout : Option Int)
  | block (timeout : Option Int)
  | getResult
  | consumeInput
  | sendQuery (unsent : Nat)
deriving DecidableEq, Repr

/-- The call, with the notifications it answers. -/
def Call.run : Call → WaitM (List Notify)
  | .notifies => do
    let n ← pqNotifies
    pure n.toList
  | .waitForNotify timeout => do
    let n ← Waiting.waitForNotify timeout
    pure n.toList
  | .block timeout => do
    let _ ← Waiting.block timeout
    pure []
  | .getResult => do
    let _ ← Waiting.getResult
    pure []
  | .consumeInput => do
    Waiting.consumeInput
    pure []
  | .sendQuery unsent => do
    Waiting.sendQuery unsent
    pure []

/-- A program that rescues every exception, up to a call that does not come back. -/
def runCalls : List Call → Session → List Notify × Session
  | [], s => ([], s)
  | call :: rest, s =>
    match call.run s with
    | (.ok ns, s) =>
      let (later, s) := runCalls rest s
      (ns ++ later, s)
    | (.error .connectionBad, s) => runCalls rest s
    | (.error .hangs, s) => ([], s)

theorem Hands.toList {m : WaitM (Option Notify)} (hands : Hands Option.toList m) :
    Hands id (m >>= fun n => Pure.pure n.toList) := by
  intro s
  have here := hands s
  cases run : m s with
  | mk result t =>
    rw [run] at here
    cases result with
    | ok n =>
      rw [bind_ok run]
      exact here
    | error e =>
      rw [bind_error run]
      exact here

theorem Hands.keeps {α : Type} {m : WaitM α} (hands : Hands (fun _ => []) m) : Keeps Session.coming m := by
  intro s
  have here := hands s
  cases run : (m s).1 <;> simpa [run, handed] using here

theorem block_keeps (timeout : Option Int) : Keeps Session.coming (block timeout) := by
  have look : Hands (fun _ : Option Unit => []) getResultReadable := fun s => by
    have here := getResultReadable_keeps s
    cases run : (getResultReadable s).1 <;> simpa [handed] using here
  unfold block waitSocketReadable
  refine Keeps.bind (Keeps.bind (fun _ => rfl) fun s => ?_) fun _ => Keeps.pure _
  exact (waitLoop_hands look rfl _ _).keeps

theorem getResult_keeps : Keeps Session.coming getResult := by
  unfold getResult
  refine (block_keeps none).bind fun _ => Keeps.read_bind fun s => ?_
  split
  · exact Keeps.bind (Keeps.change fun _ => rfl) fun _ => Keeps.pure _
  · exact Keeps.pure _

theorem waitForNotify_hands (timeout : Option Int) : Hands Option.toList (waitForNotify timeout) := by
  unfold waitForNotify waitSocketReadable
  exact Hands.bind (fun _ => rfl) fun s => waitLoop_hands pqNotifies_hands rfl _ _

/-- A call hands out what it takes. -/
theorem Call.run_hands (call : Call) : Hands id call.run := by
  cases call with
  | notifies => exact pqNotifies_hands.toList
  | waitForNotify timeout => exact (waitForNotify_hands timeout).toList
  | block timeout => exact Hands.bind (block_keeps timeout) fun _ => .pure rfl
  | getResult => exact Hands.bind getResult_keeps fun _ => .pure rfl
  | consumeInput => exact Hands.bind consumeInput_keeps fun _ => .pure rfl
  | sendQuery unsent => exact Hands.bind (Keeps.change fun _ => rfl) fun _ => .pure rfl

/-- **No notification is lost, doubled or overtaken.** Whatever the program calls and whenever the messages
come: the notifications it got so far, then those still on their way, are those there were. -/
theorem run_hands_out (calls : List Call) (s : Session) : (runCalls calls s).1 ++ (runCalls calls s).2.coming = s.coming := by
  induction calls generalizing s with
  | nil => rfl
  | cons call rest ih =>
    have here := call.run_hands s
    unfold runCalls
    cases run : call.run s with
    | mk result t =>
      rw [run] at here
      cases result with
      | ok ns =>
        dsimp only
        rw [List.append_assoc, ih t]
        exact here
      | error e =>
        cases e with
        | connectionBad =>
          rw [← here]
          exact ih t
        | hangs => exact here

/-! ### The end of the time -/

theorem parse_parse (status : AsyncStatus) (input : List Message) (queue : List Notify) :
    let parsed := parse status input queue
    parse parsed.1 parsed.2.1 parsed.2.2 = parsed := by
  induction input generalizing status queue with
  | nil => cases status <;> rfl
  | cons message rest ih =>
    cases message with
    | notify n =>
      rw [parse]
      exact ih _ _
    | result id => cases status <;> first | exact ih _ _ | rfl
    | readyForQuery => cases status <;> first | exact ih _ _ | rfl

/-- Everything read is parsed, and nothing is found. -/
structure Looked (s : Session) : Prop where
  queue : s.queue = []
  parsed : parse s.asyncStatus s.input s.queue = (s.asyncStatus, s.input, s.queue)

theorem pqNotifies_none {s t : Session} (none : pqNotifies s = (.ok none, t)) :
    Looked t ∧ t.socket = s.socket ∧ t.now = s.now ∧ t.unsent = s.unsent ∧ t.schedule = s.schedule ∧ t.lost = s.lost := by
  unfold pqNotifies at none
  dsimp only at none
  cases here : s.parseInput.queue with
  | cons n rest =>
    rw [here] at none
    cases none
  | nil =>
    rw [here] at none
    cases none
    exact ⟨⟨here, parse_parse s.asyncStatus s.input s.queue⟩, rfl, rfl, rfl, rfl, rfl⟩

/-- A wait that is over before anything came. -/
theorem rbIoWait_false {timeout : Option Int} {s t : Session} (waited : rbIoWait timeout s = (.ok false, t)) :
    s.socket = [] ∧ ∃ time, timeout = some time ∧ ∃ schedule, t = { s with now := s.now + time, schedule } := by
  unfold rbIoWait at waited
  split at waited
  · cases waited
  · rename_i quiet
    refine ⟨not_not.1 (not_or.1 quiet).1, ?_⟩
    split at waited
    · cases waited
    · rename_i time _
      cases waited
      exact ⟨time, rfl, _, rfl⟩
    · cases waited
    · rename_i delay event rest time _
      split at waited
      · cases waited
        exact ⟨time, rfl, _, rfl⟩
      · cases waited

theorem rbIoWait_now {s t : Session} {before : Bool} (run : rbIoWait none s = (.ok before, t)) : s.now ≤ t.now := by
  unfold rbIoWait at run
  split at run
  · cases run
    exact Int.le_refl _
  · split at run
    · cases run
    · rename_i other
      cases other
    · rename_i delay _ _ _ _
      cases run
      show s.now ≤ s.now + (delay : Int)
      omega
    · rename_i other
      cases other

theorem consumeInput_ok {s t : Session} (run : consumeInput s = (.ok (), t)) :
    t = { s with input := s.input ++ s.socket, socket := [] } := by
  unfold consumeInput at run
  split at run
  · cases run
  · cases run
    rfl

theorem asyncFlush_now {unsent : Nat} {s t : Session} (run : asyncFlush unsent s = (.ok (), t)) : s.now ≤ t.now := by
  induction unsent generalizing s with
  | zero =>
    cases run
    exact Int.le_refl _
  | succ unsent ih =>
    obtain ⟨before, s₁, waited, run⟩ := of_bind run
    obtain ⟨_, s₂, consumed, run⟩ := of_bind run
    rw [change_bind] at run
    have first := rbIoWait_now waited
    rw [consumeInput_ok consumed] at run
    have later := ih run
    exact Int.le_trans first later

/-- The loop answers NULL behind its time only, with everything read and nothing found. -/
theorem waitLoop_nil {aborttime : Option Int} {fuel : Nat} {s t : Session}
    (nil : waitLoop pqNotifies aborttime fuel s = (.ok none, t)) :
    ∃ time, aborttime = some time ∧ time ≤ t.now ∧ Looked t ∧ (s.socket = [] ∨ s.now ≤ time → t.socket = []) := by
  induction fuel generalizing s with
  | zero => cases nil
  | succ fuel ih =>
    obtain ⟨found, s₁, look, nil⟩ := of_bind nil
    cases found with
    | some n => cases nil
    | none =>
      obtain ⟨looked, socket, now, -⟩ := pqNotifies_none look
      dsimp only at nil
      rw [read_bind] at nil
      split at nil
      · obtain ⟨_, s₂, flushed, nil⟩ := of_bind nil
        have later := asyncFlush_now flushed
        obtain ⟨found, s₃, look, nil⟩ := of_bind nil
        cases found with
        | some n => cases nil
        | none =>
          obtain ⟨looked, socket', now', -⟩ := pqNotifies_none look
          obtain ⟨before, s₄, waited, nil⟩ := of_bind nil
          cases before with
          | true =>
            obtain ⟨_, s₅, consumed, nil⟩ := of_bind nil
            obtain ⟨time, same, elapsed, looked, read⟩ := ih nil
            refine ⟨time, same, elapsed, looked, fun _ => read (.inl ?_)⟩
            rw [consumeInput_ok consumed]
          | false =>
            cases nil
            obtain ⟨empty, time, same, schedule, rfl⟩ := rbIoWait_false waited
            cases aborttime with
            | none => cases same
            | some abort =>
              cases same
              refine ⟨abort, rfl, ?_, ⟨looked.queue, looked.parsed⟩, fun _ => empty⟩
              show abort ≤ s₃.now + (abort - s₁.now)
              omega
      · rename_i past
        cases nil
        cases aborttime with
        | none => simp at past
        | some abort =>
          refine ⟨abort, rfl, ?_, looked, ?_⟩
          · simp at past
            omega
          · intro either
            simp at past
            rw [socket]
            exact either.resolve_right (by omega)

/-- What is not parsed stands behind a result that nobody has taken. -/
theorem parse_behind {status : AsyncStatus} {input : List Message} {queue : List Notify}
    (left : (parse status input queue).2.1 ≠ []) : ∃ id, (parse status input queue).1 = .ready id := by
  induction input generalizing status queue with
  | nil => cases status <;> exact absurd rfl left
  | cons message rest ih =>
    cases message with
    | notify n =>
      rw [parse] at left ⊢
      exact ih left
    | result id => cases status <;> first | exact ih left | exact ⟨_, rfl⟩
    | readyForQuery => cases status <;> first | exact ih left | exact ⟨_, rfl⟩

theorem pqNotifies_returns (s : Session) : ∃ found t, pqNotifies s = (.ok found, t) := by
  unfold pqNotifies
  dsimp only
  split
  · exact ⟨_, _, rfl⟩
  · exact ⟨_, _, rfl⟩

/-- A wait with a timeout comes back. -/
theorem rbIoWait_returns (time : Int) (s : Session) : ∃ before t, rbIoWait (some time) s = (.ok before, t) := by
  unfold rbIoWait
  split_ifs
  · exact ⟨_, _, rfl⟩
  · split
    · rename_i other
      cases other
    · exact ⟨_, _, rfl⟩
    · rename_i other
      cases other
    · split_ifs
      · exact ⟨_, _, rfl⟩
      · exact ⟨_, _, rfl⟩

/-- A wait that ends before its time found the socket readable, or took an event. -/
theorem rbIoWait_true {time : Int} {s t : Session} (before : rbIoWait (some time) s = (.ok true, t)) :
    t.unsent = s.unsent ∧ (t.lost = true ∨ s.socket ≠ [] ∧ t.schedule = s.schedule ∨
      s.socket = [] ∧ t.schedule.length + 1 = s.schedule.length) := by
  unfold rbIoWait at before
  split at before
  · rename_i ready
    cases before
    exact ⟨rfl, ready.symm.imp_right fun full => .inl ⟨full, rfl⟩⟩
  · rename_i quiet
    have empty := not_not.1 (not_or.1 quiet).1
    split at before
    · cases before
    · cases before
    · rename_i other
      cases other
    · rename_i delay event rest time' here _
      split at before
      · cases before
      · cases before
        exact ⟨rfl, .inr (.inr ⟨empty, by rw [here]; rfl⟩)⟩

/-- With everything sent, the loop with a time ends, and raises only where the connection is lost. -/
theorem waitLoop_returns {abort : Int} {fuel : Nat} {s t : Session} {e : Halt} (sent : s.unsent = 0)
    (enough : s.schedule.length + (if s.socket = [] then 1 else 2) ≤ fuel)
    (stopped : waitLoop pqNotifies (some abort) fuel s = (.error e, t)) : e = .connectionBad ∧ t.lost = true := by
  induction fuel generalizing s with
  | zero => split_ifs at enough <;> omega
  | succ fuel ih =>
    obtain ⟨found, s₁, look⟩ := pqNotifies_returns s
    unfold waitLoop at stopped
    rw [bind_ok look] at stopped
    cases found with
    | some n => cases stopped
    | none =>
      obtain ⟨-, socket, -, unsent, schedule, -⟩ := pqNotifies_none look
      dsimp only at stopped
      rw [read_bind] at stopped
      split at stopped
      · rw [unsent, sent] at stopped
        obtain ⟨found, s₂, look⟩ := pqNotifies_returns s₁
        have flushed : asyncFlush 0 s₁ = (.ok (), s₁) := rfl
        rw [bind_ok flushed, bind_ok look] at stopped
        cases found with
        | some n => cases stopped
        | none =>
          obtain ⟨-, socket', -, unsent', schedule', -⟩ := pqNotifies_none look
          obtain ⟨before, s₃, waited⟩ := rbIoWait_returns (abort - s₁.now) s₂
          dsimp only at stopped
          rw [show Option.map (fun x => x - s₁.now) (some abort) = some (abort - s₁.now) from rfl, bind_ok waited] at stopped
          cases before with
          | false => cases stopped
          | true =>
            obtain ⟨unsent'', progress⟩ := rbIoWait_true waited
            rw [if_pos rfl] at stopped
            rcases error_of_bind stopped with raised | ⟨_, s₄, consumed, stopped⟩
            · unfold consumeInput at raised
              split at raised
              · rename_i lost
                cases raised
                exact ⟨rfl, lost⟩
              · cases raised
            · have connected : s₃.lost = false := by
                unfold consumeInput at consumed
                split at consumed
                · cases consumed
                · rename_i connected
                  simpa using connected
              rw [consumeInput_ok consumed] at stopped
              refine ih ?_ ?_ stopped
              · show s₃.unsent = 0
                rw [unsent'', unsent', unsent, sent]
              · show s₃.schedule.length + 1 ≤ fuel
                rw [schedule', schedule, socket', socket, connected] at progress
                rcases progress with lost | ⟨full, same⟩ | ⟨empty, less⟩
                · cases lost
                · rw [if_neg full] at enough
                  rw [same]
                  omega
                · rw [if_pos empty] at enough
                  omega
      · cases stopped

/-- What takes no time and sends nothing. -/
def Session.clock (s : Session) : Int × Nat := (s.now, s.unsent)

theorem pqNotifies_clock : Keeps Session.clock pqNotifies := by
  intro s
  unfold pqNotifies
  dsimp only
  split <;> rfl

theorem consumeInput_clock : Keeps Session.clock consumeInput := by
  intro s
  unfold consumeInput
  split <;> rfl

/-- A wait with a timeout ends in time. -/
theorem rbIoWait_punctual {time : Int} (positive : 0 ≤ time) (s : Session) :
    (rbIoWait (some time) s).2.now ≤ s.now + time ∧ (rbIoWait (some time) s).2.unsent = s.unsent := by
  unfold rbIoWait
  split
  · exact ⟨by dsimp only; omega, rfl⟩
  · split
    · rename_i other
      cases other
    · rename_i time' _ same
      cases same
      exact ⟨Int.le_refl _, rfl⟩
    · rename_i other
      cases other
    · rename_i delay event rest time' _ same
      cases same
      split
      · exact ⟨Int.le_refl _, rfl⟩
      · refine ⟨?_, rfl⟩
        show s.now + delay ≤ s.now + time
        omega

/-- With everything sent, the loop does not go on behind its time. -/
theorem waitLoop_punctual {abort : Int} {fuel : Nat} {s : Session} (sent : s.unsent = 0) (early : s.now ≤ abort) :
    (waitLoop pqNotifies (some abort) fuel s).2.now ≤ abort := by
  induction fuel generalizing s with
  | zero => exact early
  | succ fuel ih =>
    have clock := pqNotifies_clock s
    obtain ⟨found, s₁, look⟩ := pqNotifies_returns s
    simp only [look, Session.clock, Prod.mk.injEq] at clock
    unfold waitLoop
    rw [bind_ok look]
    cases found with
    | some n => exact clock.1.trans_le early
    | none =>
      have ahead : 0 ≤ abort - s₁.now := by omega
      have waits : (Option.map (fun x => x - s₁.now) (some abort)).all (0 ≤ ·) = true := by simpa using ahead
      dsimp only
      rw [read_bind, if_pos waits, clock.2, sent]
      have clock' := pqNotifies_clock s₁
      obtain ⟨found, s₂, look⟩ := pqNotifies_returns s₁
      simp only [look, Session.clock, Prod.mk.injEq] at clock'
      have flushed : asyncFlush 0 s₁ = (.ok (), s₁) := rfl
      rw [bind_ok flushed, bind_ok look]
      cases found with
      | some n => exact (clock'.1.trans clock.1).trans_le early
      | none =>
        have punctual := rbIoWait_punctual ahead s₂
        have limit : s₂.now + (abort - s₁.now) ≤ abort := by omega
        obtain ⟨before, s₃, waited⟩ := rbIoWait_returns (abort - s₁.now) s₂
        rw [waited] at punctual
        dsimp only at punctual ⊢
        rw [show Option.map (fun x => x - s₁.now) (some abort) = some (abort - s₁.now) from rfl, bind_ok waited]
        cases before with
        | false => exact Int.le_trans punctual.1 limit
        | true =>
          rw [if_pos rfl]
          have clock'' := consumeInput_clock s₃
          cases consumed : consumeInput s₃ with
          | mk result s₄ =>
            simp only [consumed, Session.clock, Prod.mk.injEq] at clock''
            cases result with
            | error e =>
              rw [bind_error consumed]
              exact clock''.1.trans_le (Int.le_trans punctual.1 limit)
            | ok _ =>
              rw [bind_ok consumed]
              exact ih (by omega) (by omega)

/-- **`wait_for_notify` keeps its time.** With a time that is not negative and everything sent, it comes back
in time on a connection that is not lost; and where it answers `nil`, the time is just over, and no notification
has come to the connection, but behind a result that nobody has taken. -/
theorem wait_for_notify_keeps_time (time : Int) (positive : 0 ≤ time) (s : Session) (sent : s.unsent = 0) :
    let (answer, t) := waitForNotify (some time) s
    t.now ≤ s.now + time ∧ (∀ e, answer = .error e → e = .connectionBad ∧ t.lost = true) ∧
      (answer = .ok none → t.now = s.now + time ∧ ((∀ id, t.asyncStatus ≠ .ready id) →
        s.coming = notifications (t.schedule.flatMap fun entry => entry.2.messages))) := by
  have punctual := @waitLoop_punctual (s.now + time) (s.schedule.length + 2) s sent (by omega)
  cases run : waitForNotify (some time) s with
  | mk answer t =>
    have loop : waitLoop pqNotifies (some (s.now + time)) (s.schedule.length + 2) s = (answer, t) := run
    rw [loop] at punctual
    refine ⟨punctual, ?_, ?_⟩
    · rintro e rfl
      apply waitLoop_returns sent _ loop
      split_ifs <;> omega
    · rintro rfl
      obtain ⟨abort, same, elapsed, looked, read⟩ := waitLoop_nil loop
      cases same
      refine ⟨Int.le_antisymm punctual elapsed, fun untaken => ?_⟩
      have conserved := waitForNotify_hands (some time) s
      rw [run] at conserved
      have empty : t.input = [] := by
        by_contra left
        have parsed := looked.parsed
        obtain ⟨id, ready⟩ := @parse_behind t.asyncStatus t.input t.queue (by rw [parsed]; exact left)
        rw [parsed] at ready
        exact untaken id ready
      have socket := read (.inr (by omega))
      rw [← conserved]
      simp [handed, Session.coming, looked.queue, empty, socket, notifications]

/-- The theorem at a wait of a second in which nothing comes: the notification comes a second later. -/
theorem wait_for_notify_keeps_time_late :
    let (answer, t) := waitForNotify (some 1000000) { schedule := [(2000000, .arrive [.notify ⟨[97], 1, []⟩])] }
    t.now ≤ (0 : Int) + 1000000 ∧ (∀ e, answer = .error e → e = .connectionBad ∧ t.lost = true) ∧
      (answer = .ok none → t.now = (0 : Int) + 1000000 ∧ ((∀ id, t.asyncStatus ≠ .ready id) →
        Session.coming { schedule := [(2000000, .arrive [.notify ⟨[97], 1, []⟩])] } =
          notifications (t.schedule.flatMap fun entry => entry.2.messages))) :=
  wait_for_notify_keeps_time 1000000 (by decide) { schedule := [(2000000, .arrive [.notify ⟨[97], 1, []⟩])] } rfl

end RubyPg.Waiting
