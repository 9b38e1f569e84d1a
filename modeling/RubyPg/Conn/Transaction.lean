import Mathlib.Tactic.ByContra
import Mathlib.Tactic.SplitIfs
import RubyPg.Lib.Method

/-!
# `PG::Connection#transaction`

`transaction` of `lib/pg/connection.rb` over a server that executes statements on arbitrary data. A block
is any tree of `exec` calls whose exceptions it may rescue. At every call the connection may break, or an
exception of another thread or the end of the own thread may strike while the statement is in progress.
`transaction_atomic` says what is left of a block in each case.
-/

namespace RubyPg.Tx
set_option autoImplicit false

/-- What unwinds the stack. `unwind` is `break` or `throw`, which no `rescue` sees; `kill` is the end of the
thread, which none sees either but during which the thread is `aborting`. -/
inductive Exn where
  | pgError | rollbackTransaction | other | unwind | kill
deriving DecidableEq, Repr

/-- `rescue Exception` sees it. -/
def Exn.isException (e : Exn) : Bool := e ≠ .unwind && e ≠ .kill

/-- A statement. `change` reads and writes data, or fails. -/
inductive Stmt (D : Type) where
  | begin
  | commit
  | rollback
  | change (f : D → Option D)

/-- The transaction block of the session: none, with its own version of the data, or failed. -/
inductive TxBlock (D : Type) where
  | none
  | work (data : D)
  | aborted

/-- What happens to a call: it is answered, an exception strikes while it is in progress, or the connection
breaks before or behind the execution. -/
inductive Fate where
  | done
  | struck (e : Exn)
  | lost (executed : Bool)

/-- The server: the committed data, the block of the session, and the statements executed in order. -/
structure Server (D : Type) where
  data : D
  block : TxBlock D := .none
  served : List (D → Option D) := []

/-- The session on both sides: the server, the statement in progress, whether the connection still stands,
and what is going to happen to the next calls. -/
structure Session (D : Type) where
  server : Server D
  active : Option (Stmt D) := none
  alive : Bool := true
  fates : List Fate := []

abbrev TxM (D : Type) := Method Exn (Session D)

section Calls

variable {D : Type} (constraints : D → Bool)

/-- The server executes a statement. `constraints` are the deferred ones, checked by COMMIT. -/
def Server.execute (s : Server D) : Stmt D → Except Exn Unit × Server D
  | .begin =>
    match s.block with
    | .none => (.ok (), { s with block := .work s.data })
    | .work _ => (.ok (), s)
    | .aborted => (.error .pgError, s)
  | .commit =>
    match s.block with
    | .none => (.ok (), s)
    | .work data =>
      if constraints data then (.ok (), { s with data, block := .none })
      else (.error .pgError, { s with block := .none })
    | .aborted => (.ok (), { s with block := .none })
  | .rollback => (.ok (), { s with block := .none })
  | .change f =>
    match s.block with
    | .none =>
      match f s.data with
      | some data => (.ok (), { s with data, served := s.served ++ [f] })
      | none => (.error .pgError, { s with served := s.served ++ [f] })
    | .work data =>
      match f data with
      | some data => (.ok (), { s with block := .work data, served := s.served ++ [f] })
      | none => (.error .pgError, { s with block := .aborted, served := s.served ++ [f] })
    | .aborted => (.error .pgError, { s with served := s.served ++ [f] })

/-- The server when it is through with what is in progress. -/
def Session.settled (s : Session D) : Server D :=
  match s.active with
  | none => s.server
  | some stmt => (s.server.execute constraints stmt).2

/-- What happens to the next call. -/
def Session.fate (s : Session D) : Fate := s.fates.headD .done

def Session.next (s : Session D) : Session D := { s with fates := s.fates.tail }

/-- The connection breaks, and the server rolls back what it had begun. -/
def Session.drop (s : Session D) (server : Server D) : Session D :=
  { s with server := { server with block := .none }, active := none, alive := false }

/-- `exec`: what is in progress is waited for and discarded, then the statement is sent. -/
def exec (stmt : Stmt D) : TxM D Unit := fun s =>
  if s.alive then
    let server := s.settled constraints
    match s.fate with
    | .done =>
      let (result, server) := server.execute constraints stmt
      (result, { s.next with server, active := none })
    | .struck e => (.error e, { s.next with server, active := some stmt })
    | .lost executed => (.error .pgError, s.next.drop (if executed then (server.execute constraints stmt).2 else server))
  else (.error .pgError, s)

/-- `cancel` while a statement is in progress. A request that fails or comes too late changes nothing. -/
def cancel : TxM D Unit := fun s =>
  match s.fate with
  | .struck e => (.error e, s.next)
  | .lost _ => (.ok (), s.next)
  | .done =>
    match s.active, s.server.block with
    | some (.change _), .work _ => (.ok (), { s.next with server := { s.server with block := .aborted }, active := none })
    | some (.change _), _ => (.ok (), { s.next with active := none })
    | _, _ => (.ok (), s.next)

/-- `block`: wait for what is in progress. -/
def block : TxM D Unit := fun s =>
  if s.alive then
    match s.fate with
    | .done => (.ok (), { s.next with server := s.settled constraints, active := none })
    | .struck e => (.error e, s.next)
    | .lost executed => (.error .pgError, s.next.drop (if executed then s.settled constraints else s.server))
  else (.error .pgError, s)

/-- The `ensure` branch behind an exception. -/
def rollBack : TxM D Unit := do
  let s ← Method.read
  if s.active.isSome then cancel
  block constraints
  exec constraints .rollback

/-- `error || Thread.current.status == "aborting"`. -/
def failed (result : Except Exn Unit) : Bool :=
  match result with
  | .ok _ => false
  | .error e => e.isException || e = .kill

/-- The method: `some` is the value of the block, `none` the `nil` behind a `PG::RollbackTransaction`. -/
def transaction (body : TxM D Unit) : TxM D (Option Unit) := fun s =>
  let (result, s) := (exec constraints .begin >>= fun _ => body) s
  match (if failed result then rollBack constraints else exec constraints .commit) s with
  | (.error e, s) => (.error e, s)
  | (.ok (), s) =>
    match result with
    | .ok _ => (.ok (some ()), s)
    | .error .rollbackTransaction => (.ok none, s)
    | .error e => (.error e, s)

/-- A block: how it is left, or a call and how it goes on. What it may rescue it goes on with. -/
inductive Body (D : Type) where
  | leave (result : Except Exn Unit)
  | exec (stmt : Stmt D) (next : Except Exn Unit → Body D)
  | transaction (inner : Body D) (next : Except Exn (Option Unit) → Body D)

/-- A call whose exceptions are rescued. -/
def attempt {α : Type} (call : TxM D α) (next : Except Exn α → TxM D Unit) : TxM D Unit := fun s =>
  match call s with
  | (.ok a, s) => next (.ok a) s
  | (.error e, s) => if e.isException then next (.error e) s else (.error e, s)

def Body.run : Body D → TxM D Unit
  | .leave result => Method.ofExcept result
  | .exec stmt next => attempt (Tx.exec constraints stmt) fun result => (next result).run
  | .transaction inner next => attempt (Tx.transaction constraints inner.run) fun result => (next result).run

end Calls

/-- A block without statements that begin or end a transaction. -/
def Body.Plain {D : Type} : Body D → Prop
  | .leave _ => True
  | .exec stmt next => (∃ f, stmt = .change f) ∧ ∀ result, (next result).Plain
  | .transaction _ _ => False

section Atomicity

variable {D : Type} {constraints : D → Bool} {data : D}

/-- All statements so far, one after the other. -/
def Server.effect (data : D) (s : Server D) : Option D := s.served.foldlM (fun d f => f d) data

/-- In the transaction block that began with `data`. -/
structure Inside (data : D) (s : Server D) : Prop where
  kept : s.data = data
  begun : s.block ≠ .none
  work : ∀ d, s.block = .work d → s.effect data = some d

/-- The same, up to a statement in progress, unless the connection is broken. -/
structure Within (constraints : D → Bool) (data : D) (s : Session D) : Prop where
  kept : s.server.data = data
  inside : s.alive = true → Inside data (s.settled constraints)
  quiet : s.alive = false → s.active = none

theorem effect_snoc {s : Server D} {f : D → Option D} {d : D} {block : TxBlock D} (before : s.effect data = some d) :
    Server.effect data { s with block, served := s.served ++ [f] } = f d := by
  unfold Server.effect at *
  rw [List.foldlM_append, before]
  simp

/-- A statement of the block works on the version of the block. -/
theorem Inside.change (constraints : D → Bool) {s : Server D} (inside : Inside data s) (f : D → Option D) :
    Inside data (s.execute constraints (.change f)).2 := by
  obtain ⟨kept, begun, work⟩ := inside
  unfold Server.execute
  cases here : s.block with
  | none => exact absurd here begun
  | work d =>
    dsimp only
    cases changed : f d with
    | some d' =>
      refine ⟨kept, by simp, fun e same => ?_⟩
      cases same
      exact (effect_snoc (work d here)).trans changed
    | none => exact ⟨kept, by simp, fun e same => by cases same⟩
  | aborted =>
    exact ⟨kept, by simp, fun e same => by cases same⟩

theorem Inside.within {s : Session D} (inside : Inside data s.server) (quiet : s.active = none) : Within constraints data s where
  kept := inside.kept
  inside _ := by
    unfold Session.settled
    rw [quiet]
    exact inside
  quiet _ := quiet

theorem within_drop {s : Session D} {server : Server D} (kept : server.data = data) : Within constraints data (s.drop server) where
  kept := kept
  inside alive := by cases alive
  quiet _ := rfl

/-- A statement of the block leaves the session in it, whatever happens to the call. -/
theorem Within.exec {s : Session D} (within : Within constraints data s) (f : D → Option D) :
    Within constraints data (Tx.exec constraints (.change f) s).2 := by
  unfold Tx.exec
  by_cases alive : s.alive = true
  · rw [if_pos alive]
    have inside := within.inside alive
    have later := inside.change constraints f
    dsimp only
    split
    · exact later.within rfl
    · refine ⟨inside.kept, fun _ => later, fun dead => ?_⟩
      rw [show s.alive = false from dead] at alive
      cases alive
    · apply within_drop
      split
      · exact later.kept
      · exact inside.kept
  · rw [if_neg alive]
    exact within

theorem Within.attempt {call : TxM D Unit} {next : Except Exn Unit → TxM D Unit} {s : Session D}
    (first : Within constraints data (call s).2)
    (rest : ∀ result s, Within constraints data s → Within constraints data (next result s).2) :
    Within constraints data (attempt call next s).2 := by
  unfold Tx.attempt
  cases run : call s with
  | mk result t =>
    rw [run] at first
    cases result with
    | ok a => exact rest _ t first
    | error e =>
      dsimp only
      split
      · exact rest _ t first
      · exact first

/-- A block that does not end the transaction stays in it, statement by statement. -/
theorem Body.Plain.within {body : Body D} (plain : body.Plain) {s : Session D} (within : Within constraints data s) :
    Within constraints data (body.run constraints s).2 := by
  induction body generalizing s with
  | leave result => exact within
  | exec stmt next ih =>
    obtain ⟨⟨f, rfl⟩, rest⟩ := plain
    exact Within.attempt (within.exec f) fun result t here => ih result (rest result) here
  | transaction inner next => exact plain.elim

/-! ### The ends of a transaction -/

/-- The transaction ended as if it had not been, or is going to. -/
def Undone (constraints : D → Bool) (data : D) (s : Session D) : Prop := (s.settled constraints).data = data

theorem Within.undone {s : Session D} (within : Within constraints data s) : Undone constraints data s := by
  unfold Undone
  by_cases alive : s.alive = true
  · exact (within.inside alive).kept
  · have quiet := within.quiet (by simpa using alive)
    unfold Session.settled
    rw [quiet]
    exact within.kept

/-- Outside a transaction block a statement begins none. -/
theorem change_outside {s : Server D} {f : D → Option D} (outside : s.block = .none) :
    (s.execute constraints (.change f)).2.block = .none := by
  unfold Server.execute
  rw [outside]
  dsimp only
  split
  · rfl
  · rfl

/-- `cancel` fails the block, or changes nothing. -/
theorem Within.cancel {s : Session D} (within : Within constraints data s) (alive : s.alive = true) :
    Within constraints data (Tx.cancel s).2 := by
  have next : Within constraints data s.next := ⟨within.kept, within.inside, within.quiet⟩
  unfold Tx.cancel
  split
  · exact next
  · exact next
  · split
    · rename_i f d active here
      exact Inside.within ⟨within.kept, by simp, fun e same => by cases same⟩ rfl
    · rename_i f active other
      have inside := within.inside alive
      rw [Session.settled, active] at inside
      refine Inside.within ⟨within.kept, ?_, fun d here => absurd here (other d)⟩ rfl
      intro none
      apply inside.begun
      exact change_outside none
    · exact next

theorem Within.block {s : Session D} (within : Within constraints data s) :
    Within constraints data (Tx.block constraints s).2 := by
  unfold Tx.block
  by_cases alive : s.alive = true
  · rw [if_pos alive]
    have inside := within.inside alive
    split
    · exact inside.within rfl
    · exact ⟨within.kept, within.inside, within.quiet⟩
    · apply within_drop
      split
      · exact inside.kept
      · exact within.kept
  · rw [if_neg alive]
    exact within

/-- ROLLBACK leaves the data as before the transaction, also where it is not answered. -/
theorem Within.rollback {s : Session D} (within : Within constraints data s) :
    Undone constraints data (Tx.exec constraints .rollback s).2 := by
  unfold Tx.exec
  by_cases alive : s.alive = true
  · rw [if_pos alive]
    have inside := within.inside alive
    dsimp only
    split
    · exact inside.kept
    · exact inside.kept
    · unfold Undone Session.drop Session.settled
      dsimp only
      split
      · exact inside.kept
      · exact inside.kept
  · rw [if_neg alive]
    exact within.undone

theorem Within.bind {α β : Type} {m : TxM D α} {k : α → TxM D β} {s : Session D} (first : Within constraints data (m s).2)
    (rest : ∀ a t, Within constraints data t → Undone constraints data (k a t).2) :
    Undone constraints data ((m >>= k) s).2 := by
  cases run : m s with
  | mk result t =>
    rw [run] at first
    cases result with
    | ok a =>
      rw [Method.bind_ok run]
      exact rest a t first
    | error e =>
      rw [Method.bind_error run]
      exact first.undone

/-- The `ensure` branch behind an exception. -/
theorem Within.rollBack {s : Session D} (within : Within constraints data s) :
    Undone constraints data (Tx.rollBack constraints s).2 := by
  have last : ∀ t, Within constraints data t →
      Undone constraints data ((Tx.block constraints >>= fun _ => Tx.exec constraints .rollback) t).2 :=
    fun t here => here.block.bind fun _ u => Within.rollback
  unfold Tx.rollBack
  rw [Method.read_bind]
  split_ifs with active
  · have alive : s.alive = true := by
      by_contra dead
      rw [within.quiet (by simpa using dead)] at active
      cases active
    exact (within.cancel alive).bind fun _ t => last t
  · exact last s within

/-- What the server has for COMMIT to take over. -/
def Server.version (data : D) (s : Server D) : D :=
  match s.block with
  | .work d => d
  | _ => data

/-- COMMIT takes over the version of the block, or leaves the data as before. -/
theorem Inside.commit (constraints : D → Bool) {s : Server D} (inside : Inside data s) :
    let t := (s.execute constraints .commit).2
    t.block = .none ∧ t.served = s.served ∧
      (t.data = data ∧ (s.execute constraints .commit).1 ≠ .ok () ∨ t.data = s.version data) := by
  obtain ⟨kept, begun, work⟩ := inside
  unfold Server.execute Server.version
  dsimp only
  cases here : s.block with
  | none => exact absurd here begun
  | work d =>
    dsimp only
    split_ifs
    · exact ⟨rfl, rfl, .inr rfl⟩
    · exact ⟨rfl, rfl, .inl ⟨kept, by simp⟩⟩
  | aborted => exact ⟨rfl, rfl, .inr kept⟩

theorem Inside.version {s : Server D} (inside : Inside data s) :
    s.version data = data ∨ s.effect data = some (s.version data) := by
  unfold Server.version
  cases here : s.block with
  | work d => exact .inr (inside.work d here)
  | none | aborted => exact .inl rfl

/-- All or nothing of what the server served. -/
def AllOrNothing (data : D) (s : Server D) : Prop := s.data = data ∨ s.effect data = some s.data

theorem Inside.commit_all (constraints : D → Bool) {s : Server D} (inside : Inside data s) :
    AllOrNothing data (s.execute constraints .commit).2 := by
  obtain ⟨-, same, ⟨kept, -⟩ | taken⟩ := inside.commit constraints
  · exact .inl kept
  · unfold AllOrNothing Server.effect
    rw [same, taken]
    exact inside.version

theorem Within.commit {s : Session D} (within : Within constraints data s) :
    let t := (Tx.exec constraints .commit s).2
    AllOrNothing data (t.settled constraints) ∧
      ((Tx.exec constraints .commit s).1 = .ok () → (t.settled constraints).data = (s.settled constraints).version data) := by
  unfold Tx.exec
  by_cases alive : s.alive = true
  · rw [if_pos alive]
    have inside := within.inside alive
    have all := inside.commit_all constraints
    dsimp only
    split
    · refine ⟨all, fun answered => ?_⟩
      obtain ⟨-, -, ⟨-, refused⟩ | taken⟩ := inside.commit constraints
      · exact absurd answered refused
      · exact taken
    · exact ⟨all, fun answered => by cases answered⟩
    · refine ⟨?_, fun answered => by cases answered⟩
      unfold Session.drop
      split_ifs
      · exact all
      · exact .inl inside.kept
  · rw [if_neg alive]
    exact ⟨.inl within.undone, fun answered => by cases answered⟩

/-! ### Nothing stays open -/

/-- No exception of another thread is going to strike. -/
def Undisturbed (s : Session D) : Prop := ∀ e, Fate.struck e ∉ s.fates

/-- The connection is idle, or broken. -/
def Closed (s : Session D) : Prop := s.alive = true → s.active = none ∧ s.server.block = .none

theorem Undisturbed.next {s : Session D} (calm : Undisturbed s) : Undisturbed s.next :=
  fun e member => calm e (List.mem_of_mem_tail member)

theorem Undisturbed.fate {s : Session D} (calm : Undisturbed s) (e : Exn) : s.fate ≠ .struck e := by
  intro struck
  unfold Session.fate at struck
  cases fates : s.fates with
  | nil =>
    rw [fates] at struck
    cases struck
  | cons fate rest =>
    rw [fates] at struck
    apply calm e
    rw [fates]
    exact struck ▸ List.mem_cons_self

/-- COMMIT and ROLLBACK end the transaction block. -/
theorem execute_ends {stmt : Stmt D} (ends : stmt = .commit ∨ stmt = .rollback) (s : Server D) :
    (s.execute constraints stmt).2.block = .none := by
  rcases ends with rfl | rfl
  · unfold Server.execute
    cases here : s.block with
    | none => exact here
    | work d =>
      dsimp only
      split_ifs <;> rfl
    | aborted => rfl
  · rfl

theorem Undisturbed.ends {stmt : Stmt D} (ends : stmt = .commit ∨ stmt = .rollback) {s : Session D} (calm : Undisturbed s) :
    Closed (Tx.exec constraints stmt s).2 := by
  unfold Tx.exec
  by_cases alive : s.alive = true
  · rw [if_pos alive]
    dsimp only
    split
    · exact fun _ => ⟨rfl, execute_ends ends _⟩
    · rename_i e struck
      exact absurd struck (calm.fate e)
    · exact fun alive => by cases alive
  · rw [if_neg alive]
    exact fun here => absurd here alive

/-- An undisturbed call does not raise while the connection stands. -/
structure Goes (m : TxM D Unit) : Prop where
  calm : ∀ s, Undisturbed s → Undisturbed (m s).2
  raises : ∀ s e, Undisturbed s → (m s).1 = .error e → Closed (m s).2

theorem Goes.then {m m' : TxM D Unit} (goes : Goes m) (last : ∀ s, Undisturbed s → Closed (m' s).2) {s : Session D}
    (calm : Undisturbed s) : Closed ((m >>= fun _ => m') s).2 := by
  have here := goes.calm s calm
  have raises := goes.raises s
  cases run : m s with
  | mk result t =>
    rw [run] at here raises
    cases result with
    | ok a =>
      rw [Method.bind_ok run]
      exact last t here
    | error e =>
      rw [Method.bind_error run]
      exact raises e calm rfl

theorem cancel_goes : Goes (Tx.cancel : TxM D Unit) where
  calm s calm := by
    unfold Tx.cancel
    split
    · exact calm.next
    · exact calm.next
    · split <;> exact calm.next
  raises s e calm raised := by
    unfold Tx.cancel at raised
    split at raised
    · rename_i e struck
      exact absurd struck (calm.fate e)
    · cases raised
    · split at raised <;> cases raised

theorem block_goes : Goes (Tx.block constraints : TxM D Unit) where
  calm s calm := by
    unfold Tx.block
    split_ifs
    · split <;> exact calm.next
    · exact calm
  raises s e calm raised := by
    unfold Tx.block at raised ⊢
    split_ifs at raised ⊢ with alive
    · split at raised
      · cases raised
      · rename_i e struck
        exact absurd struck (calm.fate e)
      · exact fun alive => by cases alive
    · exact fun here => absurd here alive

theorem Undisturbed.rollBack {s : Session D} (calm : Undisturbed s) : Closed (Tx.rollBack constraints s).2 := by
  have last : ∀ t : Session D, Undisturbed t → Closed ((Tx.block constraints >>= fun _ => Tx.exec constraints .rollback) t).2 :=
    fun t calm => block_goes.then (fun u calm => calm.ends (.inr rfl)) calm
  unfold Tx.rollBack
  rw [Method.read_bind]
  split_ifs
  · exact cancel_goes.then last calm
  · exact last s calm

/-! ### The whole method -/

/-- A standing connection outside a transaction, about whose statements so far nothing is asked. -/
structure Fresh (s : Session D) : Prop where
  alive : s.alive = true
  quiet : s.active = none
  outside : s.server.block = .none
  unserved : s.server.served = []

/-- BEGIN opens the block, also where it is not answered. -/
theorem Fresh.begin (constraints : D → Bool) {s : Session D} (fresh : Fresh s) :
    Within constraints s.server.data (Tx.exec constraints .begin s).2 := by
  obtain ⟨alive, quiet, outside, unserved⟩ := fresh
  have settled : s.settled constraints = s.server := by
    unfold Session.settled
    rw [quiet]
  have begun : Inside s.server.data (s.server.execute constraints .begin).2 := by
    unfold Server.execute
    rw [outside]
    refine ⟨rfl, by simp, fun d here => ?_⟩
    cases here
    simp [Server.effect, unserved]
  unfold Tx.exec
  rw [if_pos alive, settled]
  dsimp only
  split
  · exact begun.within rfl
  · exact ⟨rfl, fun _ => begun, fun dead => by rw [show s.alive = false from dead] at alive; cases alive⟩
  · apply within_drop
    split_ifs
    · exact begun.kept
    · rfl

/-- BEGIN and the block. -/
def entered (constraints : D → Bool) (body : Body D) (s : Session D) : Except Exn Unit × Session D :=
  (Tx.exec constraints .begin >>= fun _ => body.run constraints) s

theorem entered_within (constraints : D → Bool) {body : Body D} (plain : body.Plain) {s : Session D} (fresh : Fresh s) :
    Within constraints s.server.data (entered constraints body s).2 := by
  have first := fresh.begin constraints
  unfold entered
  cases run : Tx.exec constraints .begin s with
  | mk result t =>
    rw [run] at first
    cases result with
    | ok a =>
      rw [Method.bind_ok run]
      exact plain.within first
    | error e =>
      rw [Method.bind_error run]
      exact first

/-- How the method ends, given how the block did. -/
theorem transaction_state (constraints : D → Bool) (body : Body D) (s : Session D) :
    let inside := entered constraints body s
    let ending := if failed inside.1 then rollBack constraints else Tx.exec constraints .commit
    (Tx.transaction constraints (body.run constraints) s).2 = (ending inside.2).2 ∧
      ((Tx.transaction constraints (body.run constraints) s).1 = .ok (some ()) →
        (ending inside.2).1 = .ok () ∧ failed inside.1 = false) := by
  unfold Tx.transaction entered
  dsimp only
  generalize (Tx.exec constraints .begin >>= fun _ => body.run constraints) s = inside
  obtain ⟨result, t⟩ := inside
  dsimp only
  cases run : (if failed result then rollBack constraints else Tx.exec constraints .commit) t with
  | mk ended u =>
    cases ended with
    | error e => exact ⟨rfl, fun returned => by cases returned⟩
    | ok a =>
      cases result with
      | ok b => exact ⟨rfl, fun _ => ⟨rfl, rfl⟩⟩
      | error e => cases e <;> exact ⟨rfl, fun returned => by cases returned⟩

/-- Where nothing strikes behind the block, the method leaves no transaction open, whatever its block is and
wherever it is called. -/
theorem transaction_closes (body : Body D) {s : Session D} (calm : Undisturbed (entered constraints body s).2) :
    Closed (Tx.transaction constraints (body.run constraints) s).2 := by
  rw [(transaction_state constraints body s).1]
  split_ifs
  · exact calm.rollBack
  · exact calm.ends (.inl rfl)

/-- So a `transaction` inside another one ends that, too: what is left of the outer block runs outside of any
transaction. This is why `transaction_atomic` is about plain blocks. -/
theorem nested_transaction_closes (inner : Body D) (next : Except Exn (Option Unit) → Body D) {s : Session D}
    (calm : Undisturbed (entered constraints inner s).2) :
    ∃ t, Closed t ∧
      ((∃ result, (Body.transaction inner next).run constraints s = (next result).run constraints t) ∨
        ∃ e, e.isException = false ∧ (Body.transaction inner next).run constraints s = (.error e, t)) := by
  have closed := transaction_closes inner calm
  refine ⟨_, closed, ?_⟩
  rw [Body.run, attempt]
  cases run : Tx.transaction constraints (inner.run constraints) s with
  | mk result t =>
    cases result with
    | ok a => exact .inl ⟨.ok a, rfl⟩
    | error e =>
      cases seen : e.isException with
      | true => exact .inl ⟨.error e, if_pos seen⟩
      | false => exact .inr ⟨e, seen, if_neg (Bool.eq_false_iff.1 seen)⟩

/-- The exception of the outer block undoes nothing of what it did in front of the inner one. -/
example :
    (Tx.transaction (fun _ => true)
      ((Body.exec (.change fun d => some (d + 1)) fun _ =>
        .transaction (.leave (.ok ())) fun _ => .leave (.error .other)).run fun _ => true)
      (⟨⟨0, .none, []⟩, none, true, []⟩ : Session Nat)).2.server.data = 1 := rfl

/-- **A transaction is all or nothing.** For every block without transaction commands, whatever strikes or
breaks at any call: the data is what it was, or has all statements of the block. A block that an exception
or the end of the thread leaves changes nothing. Where the method returns the value of the block, all is
there, or nothing if a statement failed in it. And where nothing strikes behind the block, the session is
outside a transaction or broken. -/
theorem transaction_atomic (constraints : D → Bool) (body : Body D) (plain : body.Plain) (s : Session D) (fresh : Fresh s) :
    let inside := entered constraints body s
    let left := Tx.transaction constraints (body.run constraints) s
    AllOrNothing s.server.data (left.2.settled constraints) ∧
      (failed inside.1 = true → (left.2.settled constraints).data = s.server.data) ∧
      (left.1 = .ok (some ()) →
        (left.2.settled constraints).data = (inside.2.settled constraints).version s.server.data) ∧
      (Undisturbed inside.2 → Closed left.2) := by
  have within := entered_within constraints plain fresh
  obtain ⟨state, returned⟩ := transaction_state constraints body s
  have closes := @transaction_closes D constraints body s
  dsimp only
  rw [state] at closes ⊢
  by_cases raised : failed (entered constraints body s).1 = true
  · rw [if_pos raised] at *
    have undone := within.rollBack
    refine ⟨.inl undone, fun _ => undone, fun value => ?_, closes⟩
    rw [(returned value).2] at raised
    cases raised
  · rw [if_neg raised] at *
    obtain ⟨all, taken⟩ := within.commit
    refine ⟨all, fun here => absurd here raised, fun value => taken (returned value).1, closes⟩

end Atomicity

/-- Two withdrawals: the second one would make the balance negative and fails, and the block goes on. -/
def twoWithdrawals : Body Int :=
  let withdraw (amount : Int) (balance : Int) : Option Int :=
    if 0 ≤ balance - amount then some (balance - amount) else none
  .exec (.change (withdraw 30)) fun _ => .exec (.change (withdraw 90)) fun _ => .leave (.ok ())

theorem transaction_atomic_two_withdrawals :
    let inside := entered (fun _ => true) twoWithdrawals ⟨⟨100, .none, []⟩, none, true, []⟩
    let left := Tx.transaction (fun _ => true) (twoWithdrawals.run fun _ => true) ⟨⟨100, .none, []⟩, none, true, []⟩
    AllOrNothing 100 (left.2.settled fun _ => true) ∧
      (failed inside.1 = true → (left.2.settled fun _ => true).data = 100) ∧
      (left.1 = .ok (some ()) →
        (left.2.settled fun _ => true).data = (inside.2.settled fun _ => true).version 100) ∧
      (Undisturbed inside.2 → Closed left.2) :=
  transaction_atomic (fun _ => true) twoWithdrawals ⟨⟨_, rfl⟩, fun _ => ⟨⟨_, rfl⟩, fun _ => trivial⟩⟩ _ ⟨rfl, rfl, rfl, rfl⟩

end RubyPg.Tx
