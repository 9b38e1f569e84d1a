import RubyPg.Lib.Interleaving
import RubyPg.Value

/-!
# Sending without a deadlock

A program of calls on a connection in nonblocking mode, byte by byte against a server that does not read
on before its answer is written. `pgconn_async_flush` waits for the socket to get readable or writable and
reads what has come in; `put_copy_data` flushes every 100 calls; `wait_socket_readable` flushes before it
waits. Neither side can wait for the other one forever (`Session.progress`), and whatever the order of
the steps, the server reads what was queued and the client what was answered, each byte once and in order.
-/

namespace RubyPg.Wire
set_option autoImplicit false

/-- A method call of the program, with the message it makes libpq queue. `block` waits until what was
read so far suits. -/
inductive Call where
  | sendQuery (message : Bytes)
  | putCopyData (message : Bytes)
  | putCopyEnd (message : Bytes)
  | flush
  | block (readable : Bytes → Bool)

def Call.message : Call → Bytes
  | .sendQuery message | .putCopyData message | .putCopyEnd message => message
  | .flush | .block _ => []

/-- What is still to be queued. -/
def toCome (calls : List Call) : Bytes := calls.flatMap Call.message

/-- Who goes on after `pgconn_async_flush`: the caller, or `wait_socket_readable`. -/
inductive Cont where
  | caller | block
deriving DecidableEq, Repr

/-- Where the client is: between two calls, before `PQflush`, in `pg_rb_io_wait` for both events or for
input only, or behind an exception. -/
inductive Pc where
  | ready
  | flushing (back : Cont)
  | waiting (back : Cont)
  | polling
  | raised
deriving DecidableEq, Repr

def Cont.pc : Cont → Pc
  | .caller => .ready
  | .block => .polling

/-- The surroundings: what the socket holds in each direction, what libpq can buffer, what the server
writes after a byte in view of all it read before, and the flag `flush_data`. -/
structure Peers where
  sendSpace : Nat
  receiveSpace : Nat
  memory : Nat
  answer : Bytes → UInt8 → Bytes
  flushData : Bool
  sendSpace_pos : 0 < sendSpace
  receiveSpace_pos : 0 < receiveSpace

/-- Both parties and the bytes between them. -/
structure Session where
  calls : List Call
  pc : Pc
  callsToPutCopyData : Nat
  outBuffer : Bytes
  up : Bytes
  received : Bytes
  replying : Bytes
  down : Bytes
  inBuffer : Bytes
  lost : Bool

/-- Before the first call. -/
def Session.start (calls : List Call) : Session where
  calls
  pc := .ready
  callsToPutCopyData := 0
  outBuffer := []
  up := []
  received := []
  replying := []
  down := []
  inBuffer := []
  lost := false

section Client

variable (p : Peers)

/-- The start of a call, and again after a flush where `put_copy_data` and `put_copy_end` try again. -/
def Session.call (s : Session) : Option Session :=
  match s.calls with
  | [] => none
  | .sendQuery message :: rest =>
    some { s with
      calls := rest, outBuffer := s.outBuffer ++ message
      pc := if p.flushData then .flushing .caller else .ready }
  | .putCopyData message :: rest =>
    -- `sync_put_copy_data` answers false where the buffer cannot grow
    if s.outBuffer.length + message.length ≤ p.memory then
      if 100 < s.callsToPutCopyData + 1 then
        some { s with
          calls := rest, outBuffer := s.outBuffer ++ message, callsToPutCopyData := 0, pc := .flushing .caller }
      else
        some { s with
          calls := rest, outBuffer := s.outBuffer ++ message, callsToPutCopyData := s.callsToPutCopyData + 1 }
    else some { s with pc := .flushing .caller }
  | .putCopyEnd message :: rest =>
    if s.outBuffer.length + message.length ≤ p.memory then
      some { s with
        calls := rest, outBuffer := s.outBuffer ++ message, callsToPutCopyData := 0, pc := .flushing .caller }
    else some { s with pc := .flushing .caller }
  | .flush :: rest => some { s with calls := rest, pc := .flushing .caller }
  | .block readable :: rest =>
    if readable s.inBuffer then some { s with calls := rest } else some { s with pc := .flushing .block }

/-- `PQflush` hands over as much as the socket takes. -/
def Session.pqFlush (s : Session) : Session :=
  { s with
    up := s.up ++ s.outBuffer.take (p.sendSpace - s.up.length)
    outBuffer := s.outBuffer.drop (p.sendSpace - s.up.length) }

/-- `pgconn_sync_flush`: raises on a lost connection, and answers false while something is left. -/
def Session.syncFlush (s : Session) (back : Cont) : Session :=
  if s.lost = true ∧ s.outBuffer ≠ [] then { s with pc := .raised }
  else if (s.pqFlush p).outBuffer = [] then { s.pqFlush p with pc := back.pc }
  else { s.pqFlush p with pc := .waiting back }

/-- `pgconn_consume_input`. -/
def Session.consumeInput (s : Session) (next : Pc) : Session :=
  if s.lost then { s with pc := .raised }
  else { s with inBuffer := s.inBuffer ++ s.down, down := [], pc := next }

/-- The socket is readable also when the connection is lost. -/
def Session.Readable (s : Session) : Prop := s.down ≠ [] ∨ s.lost = true

instance (s : Session) : Decidable s.Readable := inferInstanceAs (Decidable (_ ∨ _))

/-- The step of the client, if it has not ended and does not wait. -/
def Session.client (s : Session) : Option Session :=
  match s.pc with
  | .ready => s.call p
  | .flushing back => some (s.syncFlush p back)
  | .waiting back =>
    if s.Readable then some (s.consumeInput (.flushing back))
    else if s.up.length < p.sendSpace then some { s with pc := .flushing back }
    else none
  | .polling =>
    match s.calls with
    | .block readable :: rest =>
      if readable s.inBuffer then some { s with calls := rest, pc := .ready }
      else if s.Readable then some (s.consumeInput .ready)
      else none
    | _ => none
  | .raised => none

end Client

/-- A step of the client, a byte the server reads or writes, or the loss of the connection. -/
inductive Step (p : Peers) : Session → Session → Prop where
  | client {s t : Session} (next : s.client p = some t) : Step p s t
  | read {s : Session} {b : UInt8} {rest : Bytes} (connected : s.lost = false) (free : s.replying = [])
      (here : s.up = b :: rest) :
      Step p s { s with up := rest, received := s.received ++ [b], replying := p.answer s.received b }
  | write {s : Session} {b : UInt8} {rest : Bytes} (connected : s.lost = false) (here : s.replying = b :: rest)
      (room : s.down.length < p.receiveSpace) : Step p s { s with replying := rest, down := s.down ++ [b] }
  | lose {s : Session} (connected : s.lost = false) : Step p s { s with lost := true }

/-- What the server answers to some bytes, in view of what it read before. -/
def repliesFrom (p : Peers) : Bytes → Bytes → Bytes
  | _, [] => []
  | past, b :: rest => p.answer past b ++ repliesFrom p (past ++ [b]) rest

def replies (p : Peers) (message : Bytes) : Bytes := repliesFrom p [] message

theorem repliesFrom_append (p : Peers) (past first second : Bytes) :
    repliesFrom p past (first ++ second) = repliesFrom p past first ++ repliesFrom p (past ++ first) second := by
  induction first generalizing past with
  | nil => simp [repliesFrom]
  | cons b rest ih => simp [repliesFrom, ih]

theorem replies_snoc (p : Peers) (message : Bytes) (b : UInt8) :
    replies p (message ++ [b]) = replies p message ++ p.answer message b := by
  simp [replies, repliesFrom_append, repliesFrom]

/-! ### What is on its way -/

/-- The bytes queued so far. -/
def Session.queued (s : Session) : Bytes := s.received ++ (s.up ++ s.outBuffer)

/-- The bytes the server has begun to answer with. -/
def Session.answered (s : Session) : Bytes := s.inBuffer ++ (s.down ++ s.replying)

@[simp] theorem pqFlush_queued (p : Peers) (s : Session) : (s.pqFlush p).queued = s.queued := by
  simp only [Session.queued, Session.pqFlush, List.append_assoc, List.take_append_drop]

theorem pqFlush_nothing {p : Peers} {s : Session} (nothing : s.outBuffer = []) : s.pqFlush p = s := by
  cases s
  subst nothing
  simp [Session.pqFlush]

theorem pqFlush_full {p : Peers} {s : Session} (full : p.sendSpace ≤ s.up.length) : s.pqFlush p = s := by
  simp [Session.pqFlush, Nat.sub_eq_zero_of_le full]

/-- What the client does in a step. -/
inductive Moves (p : Peers) (s : Session) : Session → Prop where
  /-- A call is over, or all but its flush; its message is queued. -/
  | queues {call : Call} {rest : List Call} {pc : Pc} {counter : Nat} (start : s.pc = .ready) (here : s.calls = call :: rest)
      (next : pc = .ready ∨ pc = .flushing .caller) :
      Moves p s { s with calls := rest, outBuffer := s.outBuffer ++ call.message, callsToPutCopyData := counter, pc }
  /-- The message does not fit behind what is queued. -/
  | makesRoom {call : Call} {rest : List Call} (start : s.pc = .ready) (here : s.calls = call :: rest)
      (full : p.memory < s.outBuffer.length + call.message.length) : Moves p s { s with pc := .flushing .caller }
  | blocks {readable : Bytes → Bool} {rest : List Call} (start : s.pc = .ready)
      (here : s.calls = .block readable :: rest) : Moves p s { s with pc := .flushing .block }
  | fails {back : Cont} (start : s.pc = .flushing back) (lost : s.lost = true) (pending : s.outBuffer ≠ []) :
      Moves p s { s with pc := .raised }
  | flushes {back : Cont} (start : s.pc = .flushing back) (all : (s.pqFlush p).outBuffer = [])
      (sent : s.lost = true → s.outBuffer = []) : Moves p s { s.pqFlush p with pc := back.pc }
  | waits {back : Cont} (start : s.pc = .flushing back) (part : (s.pqFlush p).outBuffer ≠ [])
      (connected : s.lost = false) : Moves p s { s.pqFlush p with pc := .waiting back }
  | consumes {pc : Pc} (start : (∃ back, s.pc = .waiting back ∧ pc = .flushing back) ∨ s.pc = .polling ∧ pc = .ready)
      (connected : s.lost = false) (input : s.down ≠ []) :
      Moves p s { s with inBuffer := s.inBuffer ++ s.down, down := [], pc }
  | breaks (start : (∃ back, s.pc = .waiting back) ∨ s.pc = .polling) (lost : s.lost = true) :
      Moves p s { s with pc := .raised }
  | writable {back : Cont} (start : s.pc = .waiting back) (room : s.up.length < p.sendSpace) :
      Moves p s { s with pc := .flushing back }
  | finds {readable : Bytes → Bool} {rest : List Call} (start : s.pc = .polling)
      (here : s.calls = .block readable :: rest) : Moves p s { s with calls := rest, pc := .ready }

theorem call_moves {p : Peers} {s t : Session} (start : s.pc = .ready) (next : s.call p = some t) : Moves p s t := by
  unfold Session.call at next
  have queues : ∀ counter {call rest pc}, s.calls = call :: rest → (pc = .ready ∨ pc = .flushing .caller) →
      Moves p s { s with calls := rest, outBuffer := s.outBuffer ++ call.message, callsToPutCopyData := counter, pc } :=
    fun _ _ _ _ here => .queues start here
  split at next
  · cases next
  · rename_i message rest here
    cases next
    apply queues s.callsToPutCopyData here
    cases p.flushData <;> simp
  · rename_i message rest here
    split at next
    · split at next
      · cases next
        exact queues _ here (.inr rfl)
      · cases next
        exact queues _ here (.inl start)
    · rename_i full
      cases next
      exact .makesRoom start here (Nat.lt_of_not_le full)
  · rename_i message rest here
    split at next
    · cases next
      exact queues _ here (.inr rfl)
    · rename_i full
      cases next
      exact .makesRoom start here (Nat.lt_of_not_le full)
  · rename_i rest here
    cases next
    have done := queues s.callsToPutCopyData here (.inr rfl)
    rwa [Call.message, List.append_nil] at done
  · rename_i readable rest here
    split at next
    · cases next
      have done := queues s.callsToPutCopyData here (.inl start)
      rwa [Call.message, List.append_nil] at done
    · cases next
      exact .blocks start here

theorem client_moves {p : Peers} {s t : Session} (next : s.client p = some t) : Moves p s t := by
  unfold Session.client at next
  split at next
  · rename_i start
    exact call_moves start next
  · rename_i back start
    cases next
    unfold Session.syncFlush
    split_ifs with broken all
    · exact .fails start broken.1 broken.2
    · refine .flushes start all fun lost => ?_
      by_contra pending
      exact broken ⟨lost, pending⟩
    · refine .waits start all ?_
      by_contra lost
      rw [Bool.not_eq_false] at lost
      apply all
      have nothing : s.outBuffer = [] := by
        by_contra pending
        exact broken ⟨lost, pending⟩
      simp [Session.pqFlush, nothing]
  · rename_i back start
    split at next
    · rename_i readable
      cases next
      unfold Session.consumeInput
      split_ifs with lost
      · exact .breaks (.inl ⟨back, start⟩) lost
      · exact .consumes (.inl ⟨back, start, rfl⟩) (Bool.eq_false_of_not_eq_true lost) (readable.resolve_right lost)
    · split at next
      · rename_i room
        cases next
        exact .writable start room
      · cases next
  · rename_i start
    split at next
    · rename_i readable rest here
      split at next
      · cases next
        exact .finds start here
      · split at next
        · rename_i input
          cases next
          unfold Session.consumeInput
          split_ifs with lost
          · exact .breaks (.inr start) lost
          · exact .consumes (.inr ⟨start, rfl⟩) (Bool.eq_false_of_not_eq_true lost) (input.resolve_right lost)
        · cases next
    · cases next
  · cases next

/-- Calls are left behind, none come in. -/
theorem Step.calls_subset {p : Peers} {s t : Session} (step : Step p s t) : t.calls ⊆ s.calls := by
  cases step with
  | client next =>
    cases client_moves next with
    | queues start here | finds start here =>
      rw [here]
      exact List.subset_cons_self _ _
    | _ => exact List.Subset.refl _
  | _ => exact List.Subset.refl _

/-! ### Every byte once and in order -/

/-- The client is inside `wait_socket_readable`. -/
def Pc.InBlock : Pc → Prop
  | .flushing back | .waiting back => back = .block
  | .polling => True
  | .ready | .raised => False

/-- What holds between any two steps of a program with these messages. -/
structure Session.Sound (p : Peers) (messages : Bytes) (s : Session) : Prop where
  stream : s.queued ++ toCome s.calls = messages
  replied : s.answered = replies p s.received
  pending : ∀ back, s.pc = .waiting back → s.outBuffer ≠ []
  polled : s.pc = .polling → s.outBuffer = []
  inBlock : s.pc.InBlock → ∃ readable rest, s.calls = .block readable :: rest
  connected : s.pc = .raised → s.lost = true

theorem sound_start (p : Peers) (calls : List Call) : (Session.start calls).Sound p (toCome calls) where
  stream := rfl
  replied := rfl
  pending _ start := by cases start
  polled start := by cases start
  inBlock inside := inside.elim
  connected start := by cases start

section Moves

variable {p : Peers} {s t : Session}

/-- A step of the client keeps the order of what is queued. -/
theorem Moves.stream (step : Moves p s t) : t.queued ++ toCome t.calls = s.queued ++ toCome s.calls := by
  cases step with
  | queues start here next =>
    rw [here]
    simp [Session.queued, toCome]
  | flushes start all sent => exact congrArg (· ++ toCome s.calls) (pqFlush_queued p s)
  | waits start part connected => exact congrArg (· ++ toCome s.calls) (pqFlush_queued p s)
  | finds start here =>
    rw [here]
    rfl
  | _ => rfl

/-- And of what is answered. -/
theorem Moves.answered (step : Moves p s t) : t.answered = s.answered ∧ t.received = s.received := by
  cases step with
  | consumes start connected input => exact ⟨by simp [Session.answered], rfl⟩
  | _ => exact ⟨rfl, rfl⟩

/-- Only a flush that leaves something waits. -/
theorem Moves.pending {back : Cont} (step : Moves p s t) (waiting : t.pc = .waiting back) : t.outBuffer ≠ [] := by
  cases step with
  | queues start here next => rcases next with rfl | rfl <;> cases waiting
  | @flushes back' start all sent => cases back' <;> cases waiting
  | waits start part connected => exact part
  | consumes start => rcases start with ⟨back', -, rfl⟩ | ⟨-, rfl⟩ <;> cases waiting
  | _ => cases waiting

/-- Only a flush that leaves nothing goes on to wait for input. -/
theorem Moves.polled (step : Moves p s t) (polling : t.pc = .polling) : t.outBuffer = [] := by
  cases step with
  | queues start here next => rcases next with rfl | rfl <;> cases polling
  | flushes start all sent => exact all
  | consumes start => rcases start with ⟨back, -, rfl⟩ | ⟨-, rfl⟩ <;> cases polling
  | _ => cases polling

/-- The client comes into `wait_socket_readable` with the call of `block`. -/
theorem Moves.inBlock (step : Moves p s t) (inside : t.pc.InBlock) :
    (∃ readable rest, t.calls = .block readable :: rest) ∨ s.pc.InBlock ∧ t.calls = s.calls := by
  cases step with
  | queues start here next => rcases next with rfl | rfl <;> cases inside
  | makesRoom start here full => cases inside
  | blocks start here => exact .inl ⟨_, _, here⟩
  | @flushes back start all sent =>
    rw [start]
    cases back with
    | caller => exact inside.elim
    | block => exact .inr ⟨rfl, rfl⟩
  | waits start part connected =>
    rw [start]
    exact .inr ⟨inside, rfl⟩
  | consumes start connected input =>
    rcases start with ⟨back, start, rfl⟩ | ⟨-, rfl⟩
    · rw [start]
      exact .inr ⟨inside, rfl⟩
    · exact inside.elim
  | writable start room =>
    rw [start]
    exact .inr ⟨inside, rfl⟩
  | fails | breaks | finds => exact inside.elim

/-- Only a lost connection raises. -/
theorem Moves.connected (step : Moves p s t) (raised : t.pc = .raised) : t.lost = true := by
  cases step with
  | queues start here next => rcases next with rfl | rfl <;> cases raised
  | fails start lost left => exact lost
  | @flushes back start all sent => cases back <;> cases raised
  | consumes start => rcases start with ⟨back, -, rfl⟩ | ⟨-, rfl⟩ <;> cases raised
  | breaks start lost => exact lost
  | _ => cases raised

end Moves

theorem Session.Sound.moves {p : Peers} {messages : Bytes} {s t : Session} (sound : s.Sound p messages)
    (step : Moves p s t) : t.Sound p messages := by
  refine ⟨step.stream.trans sound.stream, ?_, fun back => step.pending, step.polled, fun inside => ?_, step.connected⟩
  · obtain ⟨answered, received⟩ := step.answered
    rw [answered, received]
    exact sound.replied
  · obtain block | ⟨before, same⟩ := step.inBlock inside
    · exact block
    · rw [same]
      exact sound.inBlock before

theorem Session.Sound.step {p : Peers} {messages : Bytes} {s t : Session} (sound : s.Sound p messages)
    (step : Step p s t) : t.Sound p messages := by
  cases step with
  | client next => exact sound.moves (client_moves next)
  | read connected free here =>
    refine ⟨?_, ?_, sound.pending, sound.polled, sound.inBlock, sound.connected⟩
    · rw [← sound.stream]
      simp [Session.queued, here]
    · have before := sound.replied
      rw [Session.answered, free, List.append_nil] at before
      rw [replies_snoc, ← before]
      simp [Session.answered]
  | write connected here room =>
    refine ⟨sound.stream, ?_, sound.pending, sound.polled, sound.inBlock, sound.connected⟩
    rw [← sound.replied]
    simp [Session.answered, here]
  | lose connected => exact ⟨sound.stream, sound.replied, sound.pending, sound.polled, sound.inBlock, fun _ => rfl⟩

/-! ### Nobody waits forever -/

/-- The answers to what the server has not read yet. -/
def Session.future (p : Peers) (s : Session) : Bytes := repliesFrom p s.received (s.up ++ (s.outBuffer ++ toCome s.calls))

/-- The ways the bytes still have to go. -/
def Session.distance (p : Peers) (s : Session) : Nat :=
  3 * (toCome s.calls).length + 2 * s.outBuffer.length + s.up.length + 3 * (s.future p).length +
    2 * s.replying.length + s.down.length

/-- What the client does before the next byte moves or the next call begins. -/
def Session.pcRank (p : Peers) (s : Session) : Nat :=
  match s.pc with
  | .raised => 0
  | .polling => 1
  | .waiting _ => 2
  | .flushing back =>
    if s.outBuffer = [] then (if back = .block then 2 else 5)
    else if s.up.length < p.sendSpace then 1 else 3
  | .ready => 4

/-- The steps of the bytes, of the program and of the connection that are left. -/
def Session.load (p : Peers) (s : Session) : Nat := s.distance p + s.calls.length + if s.lost then 0 else 1

def Session.rank (p : Peers) (s : Session) : Nat := 8 * s.load p + s.pcRank p

theorem pcRank_le (p : Peers) (s : Session) : s.pcRank p ≤ 5 := by
  unfold Session.pcRank
  split <;> (try split_ifs) <;> omega

/-- A flush with something to send is below the start of a call. -/
theorem pcRank_flushing {p : Peers} {s : Session} {back : Cont} (start : s.pc = .flushing back)
    (pending : s.outBuffer ≠ []) : s.pcRank p ≤ 3 := by
  unfold Session.pcRank
  rw [start]
  dsimp only
  rw [if_neg pending]
  split_ifs <;> omega

/-- Progress of the bytes or the program pays for any step of the client. -/
theorem rank_lt_of_load {p : Peers} {s t : Session} (less : t.load p < s.load p) : t.rank p < s.rank p := by
  have low := pcRank_le p t
  unfold Session.rank
  omega

theorem rank_lt_of_pc {p : Peers} {s : Session} {pc : Pc} (less : Session.pcRank p { s with pc } < s.pcRank p) :
    Session.rank p { s with pc } < s.rank p := by
  have same : Session.load p { s with pc } = s.load p := rfl
  unfold Session.rank
  omega

/-- What `PQflush` hands over comes nearer to the server. -/
theorem distance_pqFlush (p : Peers) (s : Session) :
    (s.pqFlush p).distance p + min (p.sendSpace - s.up.length) s.outBuffer.length = s.distance p := by
  have future : (s.pqFlush p).future p = s.future p := by
    simp only [Session.future, Session.pqFlush, List.append_assoc]
    rw [← List.append_assoc (s.outBuffer.take _), List.take_append_drop]
  unfold Session.distance
  rw [future]
  simp only [Session.pqFlush, List.length_append, List.length_take, List.length_drop]
  omega

/-- The programs whose messages libpq can buffer. -/
def Fits (p : Peers) (calls : List Call) : Prop := ∀ call ∈ calls, call.message.length ≤ p.memory

theorem Fits.buffered {p : Peers} {calls rest : List Call} {call : Call} {outBuffer : Bytes} (fits : Fits p calls)
    (here : calls = call :: rest) (full : p.memory < outBuffer.length + call.message.length) : outBuffer ≠ [] := by
  rintro rfl
  have small := fits call (by rw [here]; exact List.mem_cons_self)
  rw [List.length_nil] at full
  omega

/-- A step of the client is paid for. -/
theorem Moves.lowers {p : Peers} {messages : Bytes} {s t : Session} (sound : s.Sound p messages) (fits : Fits p s.calls)
    (step : Moves p s t) : t.rank p < s.rank p := by
  cases step with
  | @queues call rest pc counter start here next =>
    apply rank_lt_of_load
    simp only [Session.load, Session.distance, Session.future, here, toCome, List.flatMap_cons, List.append_assoc,
      List.length_append, List.length_cons]
    omega
  | makesRoom start here full =>
    apply rank_lt_of_pc
    have before : s.pcRank p = 4 := by simp [Session.pcRank, start]
    have after := @pcRank_flushing p { s with pc := .flushing .caller } .caller rfl (fits.buffered here full)
    omega
  | blocks start here =>
    apply rank_lt_of_pc
    simp only [Session.pcRank, start]
    split_ifs <;> simp
  | fails start lost pending =>
    apply rank_lt_of_pc
    simp only [Session.pcRank, start]
    split_ifs <;> simp
  | @flushes back start all sent =>
    have moved := distance_pqFlush p s
    by_cases pending : s.outBuffer = []
    · rw [pqFlush_nothing pending]
      apply rank_lt_of_pc
      cases back <;> simp [Session.pcRank, start, pending, Cont.pc]
    · have room : 0 < min (p.sendSpace - s.up.length) s.outBuffer.length := by
        have some := List.length_pos_iff.2 pending
        simp only [Session.pqFlush, List.drop_eq_nil_iff] at all
        omega
      apply rank_lt_of_load
      have less : (s.pqFlush p).distance p < s.distance p := by omega
      exact Nat.add_lt_add_right (Nat.add_lt_add_right less _) _
  | @waits back start part linked =>
    have pending : s.outBuffer ≠ [] := by
      intro nothing
      simp [Session.pqFlush, nothing] at part
    have moved := distance_pqFlush p s
    by_cases room : s.up.length < p.sendSpace
    · apply rank_lt_of_load
      have some := List.length_pos_iff.2 pending
      have less : (s.pqFlush p).distance p < s.distance p := by omega
      exact Nat.add_lt_add_right (Nat.add_lt_add_right less _) _
    · rw [pqFlush_full (Nat.le_of_not_lt room)]
      apply rank_lt_of_pc
      simp [Session.pcRank, start, pending, room]
  | consumes start linked input =>
    apply rank_lt_of_load
    have some := List.length_pos_iff.2 input
    simp only [Session.load, Session.distance, Session.future, List.length_nil]
    omega
  | breaks start lost =>
    apply rank_lt_of_pc
    rcases start with ⟨back, start⟩ | start <;> simp [Session.pcRank, start]
  | writable start room =>
    apply rank_lt_of_pc
    simp [Session.pcRank, start, sound.pending _ start, room]
  | finds start here =>
    apply rank_lt_of_load
    simp only [Session.load, Session.distance, Session.future, here, toCome, List.flatMap_cons, Call.message,
      List.nil_append, List.length_cons]
    omega

theorem Step.lowers {p : Peers} {messages : Bytes} {s t : Session} (sound : s.Sound p messages) (fits : Fits p s.calls)
    (step : Step p s t) : t.rank p < s.rank p := by
  cases step with
  | client next => exact (client_moves next).lowers sound fits
  | read connected free here =>
    apply rank_lt_of_load
    simp only [Session.load, Session.distance, Session.future, here, free, List.cons_append, repliesFrom,
      List.length_append, List.length_cons, List.length_nil]
    omega
  | write connected here room =>
    apply rank_lt_of_load
    simp only [Session.load, Session.distance, Session.future, here, List.length_append, List.length_cons, List.length_nil]
    omega
  | lose connected =>
    apply rank_lt_of_load
    simp [Session.load, Session.distance, Session.future, connected]

/-- Each `block` is answered by what was queued before it. -/
def Answered (p : Peers) : Bytes → List Call → Prop
  | _, [] => True
  | queued, call :: rest =>
    (∀ readable, call = .block readable → readable (replies p queued) = true) ∧ Answered p (queued ++ call.message) rest

/-- What is assumed of the rest of the program. -/
structure Session.Served (p : Peers) (s : Session) : Prop where
  fits : Fits p s.calls
  answered : Answered p s.queued s.calls

theorem Session.Served.step {p : Peers} {s t : Session} (served : s.Served p) (step : Step p s t) : t.Served p := by
  obtain ⟨fits, answered⟩ := served
  refine ⟨fun call member => fits call (step.calls_subset member), ?_⟩
  cases step with
  | client next =>
    cases client_moves next with
    | queues start here next =>
      rw [here] at answered
      simpa [Session.queued] using answered.2
    | flushes | waits =>
      rw [← pqFlush_queued p s] at answered
      exact answered
    | finds start here =>
      rw [here] at answered
      have later := answered.2
      rwa [Call.message, List.append_nil] at later
    | _ => exact answered
  | read connected free here => simpa [Session.queued, here] using answered
  | write | lose => exact answered

/-- The server takes a step as long as there is something to read or to answer and the client has read
all it wrote. -/
theorem server_moves {p : Peers} {s : Session} (connected : s.lost = false) (read : s.down = [])
    (busy : s.up ≠ [] ∨ s.replying ≠ []) : ∃ t, Step p s t := by
  cases replying : s.replying with
  | cons b rest =>
    refine ⟨_, .write connected replying ?_⟩
    rw [read]
    exact p.receiveSpace_pos
  | nil =>
    cases up : s.up with
    | cons b rest => exact ⟨_, .read connected replying up⟩
    | nil => simp [replying, up] at busy

theorem call_begins (p : Peers) {s : Session} (more : s.calls ≠ []) : ∃ t, s.call p = some t := by
  unfold Session.call
  split
  · rename_i none
    exact absurd none more
  all_goals (try split_ifs) <;> exact ⟨_, rfl⟩

/-- Before the program has ended some party can take a step. -/
theorem Session.progress {p : Peers} {messages : Bytes} {s : Session} (sound : s.Sound p messages) (served : s.Served p)
    (going : ¬(s.pc = .raised ∨ s.pc = .ready ∧ s.calls = [])) : ∃ t, Step p s t := by
  cases start : s.pc with
  | ready =>
    obtain ⟨t, next⟩ := call_begins p fun none => going (.inr ⟨start, none⟩)
    exact ⟨t, .client (by rw [Session.client, start]; exact next)⟩
  | flushing back => exact ⟨_, .client (by rw [Session.client, start])⟩
  | waiting back =>
    by_cases input : s.Readable
    · exact ⟨_, .client (by rw [Session.client, start]; exact if_pos input)⟩
    · by_cases room : s.up.length < p.sendSpace
      · exact ⟨_, .client (by rw [Session.client, start]; exact (if_neg input).trans (if_pos room))⟩
      · -- the socket is full, so the server has something to read
        obtain ⟨read, connected⟩ := not_or.1 input
        refine server_moves (Bool.eq_false_of_not_eq_true connected) (not_not.1 read) (.inl ?_)
        intro none
        have space := p.sendSpace_pos
        rw [none, List.length_nil] at room
        exact room space
  | polling =>
    obtain ⟨readable, rest, here⟩ := sound.inBlock (start ▸ trivial)
    have turn : s.client p = if readable s.inBuffer then some { s with calls := rest, pc := .ready }
        else if s.Readable then some (s.consumeInput .ready) else none := by
      rw [Session.client, start]
      dsimp only
      rw [here]
    by_cases found : readable s.inBuffer = true
    · exact ⟨_, .client (turn.trans (if_pos found))⟩
    · by_cases input : s.Readable
      · exact ⟨_, .client (turn.trans ((if_neg found).trans (if_pos input)))⟩
      · obtain ⟨read, connected⟩ := not_or.1 input
        refine server_moves (Bool.eq_false_of_not_eq_true connected) (not_not.1 read) ?_
        by_contra idle
        obtain ⟨unread, unanswered⟩ := not_or.1 idle
        -- everything queued is answered, and the answer is read
        have all : s.inBuffer = replies p s.queued := by
          have replied := sound.replied
          rw [Session.answered, not_not.1 read, not_not.1 unanswered] at replied
          rw [Session.queued, not_not.1 unread, sound.polled start]
          simpa using replied
        have answered := served.answered
        rw [here] at answered
        apply found
        rw [all]
        exact answered.1 readable rfl
  | raised => exact absurd (.inl start) going

/-- The invariant of all runs. -/
def Going (p : Peers) (messages : Bytes) (s : Session) : Prop := s.Sound p messages ∧ s.Served p

theorem going_kept {p : Peers} {messages : Bytes} : Kept (Step p) (Going p messages) :=
  fun _ _ going step => ⟨going.1.step step, going.2.step step⟩

/-- **No deadlock, no byte lost.** For every program of calls whose messages libpq can buffer and whose
`block`s are answered, every server, every size of the socket buffers and every order of the steps: no run
is longer than the rank of the start; at any time the server has read a prefix of what was queued and the
client a prefix of what was answered; and where no step is possible any more the program has ended, or the
connection was lost. -/
theorem flushing_never_deadlocks (p : Peers) (calls : List Call) (fits : Fits p calls) (answered : Answered p [] calls)
    {n : Nat} {s : Session} (run : Run (Step p) n (Session.start calls) s) :
    n ≤ (Session.start calls).rank p ∧
      s.received ++ (s.up ++ s.outBuffer) ++ toCome s.calls = toCome calls ∧
      s.inBuffer ++ (s.down ++ s.replying) = replies p s.received ∧
      (Stuck (Step p) s → s.calls = [] ∧ s.pc = .ready ∨ s.pc = .raised ∧ s.lost = true) := by
  have start : Going p (toCome calls) (Session.start calls) := ⟨sound_start p calls, fits, answered⟩
  obtain ⟨sound, served⟩ := run.invariant going_kept start
  refine ⟨?_, sound.stream, sound.replied, fun stuck => ?_⟩
  · have paid := run.bounded going_kept (fun s t going step => step.lowers going.1 going.2.fits) start
    omega
  · by_contra going
    obtain ⟨t, step⟩ := Session.progress sound served fun ended =>
      going (ended.symm.imp And.symm fun raised => ⟨raised, sound.connected raised⟩)
    exact stuck t step

/-- Sockets of one byte each way, and a server that answers every byte with two. -/
def tightPeers : Peers where
  sendSpace := 1
  receiveSpace := 1
  memory := 2
  answer _ b := [b, b]
  flushData := true
  sendSpace_pos := Nat.one_pos
  receiveSpace_pos := Nat.one_pos

/-- A query of two bytes, and waiting for the whole answer. -/
def tightCalls : List Call := [.sendQuery [81, 82], .block fun read => 4 ≤ read.length]

/-- The server has read the first byte and writes its answer while the client waits. -/
def tightSession : Session :=
  { Session.start tightCalls with
    calls := [.block fun read => 4 ≤ read.length], pc := .waiting .caller
    outBuffer := [82], received := [81], replying := [81], down := [81] }

theorem tightRun : Run (Step tightPeers) 4 (Session.start tightCalls) tightSession := by
  refine .tail (.tail (.tail (.tail (.refl _) (.client rfl)) (.client rfl)) (.read rfl rfl rfl)) ?_
  exact .write rfl rfl Nat.one_pos

theorem flushing_never_deadlocks_tight :
    4 ≤ (Session.start tightCalls).rank tightPeers ∧
      tightSession.received ++ (tightSession.up ++ tightSession.outBuffer) ++ toCome tightSession.calls = toCome tightCalls ∧
      tightSession.inBuffer ++ (tightSession.down ++ tightSession.replying) = replies tightPeers tightSession.received ∧
      (Stuck (Step tightPeers) tightSession →
        tightSession.calls = [] ∧ tightSession.pc = .ready ∨ tightSession.pc = .raised ∧ tightSession.lost = true) := by
  apply flushing_never_deadlocks tightPeers tightCalls
  · simp [Fits, tightCalls, tightPeers, Call.message]
  · simp [Answered, tightCalls, tightPeers, Call.message, replies, repliesFrom]
  · exact tightRun

/-! ### The output does not pile up -/

/-- What may be queued, for messages of at most `size` bytes: one message for each call of `put_copy_data`
since the last flush, and a further one while that is being sent. -/
structure Session.Bounded (size : Nat) (s : Session) : Prop where
  counted : s.callsToPutCopyData ≤ 100
  between : s.pc = .ready → s.outBuffer.length ≤ size * s.callsToPutCopyData
  always : s.outBuffer.length ≤ size * 101

theorem call_bounded {p : Peers} {size : Nat} {s t : Session} (flushes : p.flushData = true)
    (small : ∀ call ∈ s.calls, call.message.length ≤ size) (start : s.pc = .ready) (bounded : s.Bounded size)
    (next : s.call p = some t) : t.Bounded size := by
  obtain ⟨counted, between, always⟩ := bounded
  have before := between start
  have most : size * s.callsToPutCopyData ≤ size * 100 := Nat.mul_le_mul_left size counted
  unfold Session.call at next
  split at next
  · cases next
  · rename_i message rest here
    have short := small _ (here ▸ List.mem_cons_self)
    simp only [Call.message] at short
    cases next
    refine ⟨counted, fun other => ?_, ?_⟩
    · simp [flushes] at other
    · simp only [List.length_append]
      omega
  · rename_i message rest here
    have short := small _ (here ▸ List.mem_cons_self)
    simp only [Call.message] at short
    split at next
    · split at next
      · cases next
        refine ⟨Nat.zero_le _, fun other => (by cases other), ?_⟩
        simp only [List.length_append]
        omega
      · rename_i few
        cases next
        refine ⟨Nat.le_of_not_lt few, fun _ => ?_, ?_⟩
        · simp only [List.length_append, Nat.mul_succ]
          omega
        · simp only [List.length_append]
          omega
    · cases next
      exact ⟨counted, fun other => (by cases other), always⟩
  · rename_i message rest here
    have short := small _ (here ▸ List.mem_cons_self)
    simp only [Call.message] at short
    split at next
    · cases next
      refine ⟨Nat.zero_le _, fun other => (by cases other), ?_⟩
      simp only [List.length_append]
      omega
    · cases next
      exact ⟨counted, fun other => (by cases other), always⟩
  · cases next
    exact ⟨counted, fun other => (by cases other), always⟩
  · split at next
    · cases next
      exact ⟨counted, fun _ => before, always⟩
    · cases next
      exact ⟨counted, fun other => (by cases other), always⟩

theorem Session.Bounded.moves {p : Peers} {messages : Bytes} {size : Nat} {s t : Session} (flushes : p.flushData = true)
    (small : ∀ call ∈ s.calls, call.message.length ≤ size) (sound : s.Sound p messages) (bounded : s.Bounded size)
    (next : s.client p = some t) : t.Bounded size := by
  have first : s.pc = .ready → t.Bounded size := fun start => by
    rw [Session.client, start] at next
    exact call_bounded flushes small start bounded next
  have sent : (s.pqFlush p).outBuffer.length ≤ size * 101 := by
    have less : (s.pqFlush p).outBuffer.length ≤ s.outBuffer.length := by
      simp [Session.pqFlush]
    exact Nat.le_trans less bounded.always
  cases client_moves next with
  | queues start | makesRoom start | blocks start => exact first start
  | fails | breaks | writable => exact ⟨bounded.counted, fun other => (by cases other), bounded.always⟩
  | flushes start all =>
    refine ⟨bounded.counted, fun _ => ?_, sent⟩
    rw [show _ = [] from all]
    exact Nat.zero_le _
  | waits start part linked => exact ⟨bounded.counted, fun other => (by cases other), sent⟩
  | consumes start linked input =>
    refine ⟨bounded.counted, fun other => ?_, bounded.always⟩
    rcases start with ⟨back, -, rfl⟩ | ⟨start, -⟩
    · cases other
    · rw [show _ = [] from sound.polled start]
      exact Nat.zero_le _
  | finds start here =>
    refine ⟨bounded.counted, fun _ => ?_, bounded.always⟩
    rw [show _ = [] from sound.polled start]
    exact Nat.zero_le _

/-- **The output does not pile up.** In every run of every program with messages of at most `size` bytes, on
a connection that flushes its queries, at most the bytes of 100 messages are queued between two calls and of
101 at any time. -/
theorem output_bounded (p : Peers) (flushes : p.flushData = true) (calls : List Call) (size : Nat)
    (small : ∀ call ∈ calls, call.message.length ≤ size) {n : Nat} {s : Session}
    (run : Run (Step p) n (Session.start calls) s) :
    (s.pc = .ready → s.outBuffer.length ≤ size * 100) ∧ s.outBuffer.length ≤ size * 101 := by
  have kept : Kept (Step p) fun s =>
      s.Sound p (toCome calls) ∧ (∀ call ∈ s.calls, call.message.length ≤ size) ∧ s.Bounded size := by
    rintro s t ⟨sound, small, bounded⟩ step
    refine ⟨sound.step step, ?_, ?_⟩
    · intro call member
      exact small call (step.calls_subset member)
    · cases step with
      | client next => exact bounded.moves flushes small sound next
      | read | write | lose => exact ⟨bounded.counted, bounded.between, bounded.always⟩
  have start : (Session.start calls).Bounded size := ⟨Nat.zero_le _, fun _ => Nat.zero_le _, Nat.zero_le _⟩
  obtain ⟨-, -, bounded⟩ := run.invariant kept ⟨sound_start p calls, small, start⟩
  refine ⟨fun ready => ?_, bounded.always⟩
  exact Nat.le_trans (bounded.between ready) (Nat.mul_le_mul_left size bounded.counted)

theorem output_bounded_tight :
    (tightSession.pc = .ready → tightSession.outBuffer.length ≤ 2 * 100) ∧ tightSession.outBuffer.length ≤ 2 * 101 :=
  output_bounded tightPeers rfl tightCalls 2 (by simp [tightCalls, Call.message]) tightRun

end RubyPg.Wire
