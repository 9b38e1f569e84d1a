import RubyPg.Connect.ResolveHosts
import Mathlib.Data.List.Perm.Basic
import Mathlib.Logic.Function.Iterate

/-!
# Restarts after a timeout

Each timeout restarts the connection with the entries that are left, so that the loop ends
as long as every start loses an entry. It loses one exactly where `remove_current_host`
finds the current entry (`Finds`): a single entry without hostaddr is never found, since
the empty list option splits into nothing, and neither is an entry without port, whose
`to_i` is not the default port.
-/

namespace RubyPg.Connect
set_option autoImplicit false
open Ascii

variable {defPgport : Int} {current : Current} {es : List Entry}

/-- `remove_current_host` deletes one entry, equal to the current one, from all three lists, and
returns how many are left. -/
def Deletes (defPgport : Int) (current : Current) (es : List Entry) : Prop :=
  ∃ i e, es[i]? = some e ∧ e.report defPgport = current ∧
    removeCurrentHost current (optsOf es) = .ok (es.length - 1, optsOf (es.eraseIdx i))

/-- The first entry whose strings compare equal is the current one, and hostaddrs are listed at all. -/
def Finds (defPgport : Int) (current : Current) (es : List Entry) : Prop :=
  es.map Entry.hostaddr ≠ [[]] ∧
    ∃ e, es.find? (fun e => decide (e.Is current)) = some e ∧ e.report defPgport = current

/-- Joined columns determine the fields, where it is known whether there are any. -/
theorem map_eq_of_rbJoin {f : Entry → Bytes} {es es' : List Entry} (plain : ∀ e ∈ es, comma ∉ f e)
    (plain' : ∀ e ∈ es', comma ∉ f e) (empty : es = [] ↔ es' = [])
    (same : rbJoin (es.map f) = rbJoin (es'.map f)) : es.map f = es'.map f := by
  have columns : column f es = column f es' := by
    rw [← rbSplit_column plain, ← rbSplit_column plain', same]
  unfold column at columns
  split at columns <;> split at columns
  · rename_i lost lost'
    rw [lost, lost']
  · rename_i lost _
    have none : es' = [] := by simpa using columns.symm
    rw [empty.2 none, List.map_nil] at lost
    cases lost
  · rename_i lost
    have none : es = [] := by simpa using columns
    rw [empty.1 none, List.map_nil] at lost
    cases lost
  · exact columns

theorem optsOf_injective {es es' : List Entry} (plain : ∀ e ∈ es, e.Plain) (plain' : ∀ e ∈ es', e.Plain)
    (empty : es = [] ↔ es' = []) (same : optsOf es = optsOf es') : es = es' := by
  simp only [optsOf, Opts.mk.injEq, Option.some.injEq] at same
  have hosts := map_eq_of_rbJoin (fun e he => (plain e he).host) (fun e he => (plain' e he).host) empty same.1
  have hostaddrs := map_eq_of_rbJoin (fun e he => (plain e he).hostaddr) (fun e he => (plain' e he).hostaddr)
    empty same.2.1
  have ports := map_eq_of_rbJoin (fun e he => (plain e he).port) (fun e he => (plain' e he).port) empty same.2.2
  have length : es.length = es'.length := by simpa using congrArg List.length hosts
  refine List.ext_getElem length fun i inside inside' => ?_
  have host := congrArg (·[i]?) hosts
  have hostaddr := congrArg (·[i]?) hostaddrs
  have port := congrArg (·[i]?) ports
  simp only [List.getElem?_map, List.getElem?_eq_getElem inside, List.getElem?_eq_getElem inside',
    Option.map_some, Option.some.injEq] at host hostaddr port
  cases left : es[i]
  cases right : es'[i]
  simp_all

/-- Deleting at two places with the same result deletes the same. -/
theorem getElem_eq_of_eraseIdx {i j : Nat} (hi : i < es.length) (hj : j < es.length)
    (same : es.eraseIdx i = es.eraseIdx j) : es[i] = es[j] := by
  have perm : (es[i] :: es.eraseIdx i).Perm (es[j] :: es.eraseIdx i) := by
    refine (List.getElem_cons_eraseIdx_perm hi).trans ?_
    rw [same]
    exact (List.getElem_cons_eraseIdx_perm hj).symm
  by_contra differ
  have counts := perm.count_eq es[i]
  rw [List.count_cons_self, List.count_cons_of_ne (Ne.symm differ)] at counts
  omega

/-- Which entry is found, in terms of the list. -/
theorem findCurrent_eq_some {i : Nat} (found : findCurrent current es = some i) :
    es.map Entry.host ≠ [[]] ∧ es.map Entry.hostaddr ≠ [[]] ∧
      ∃ e, es[i]? = some e ∧ es.find? (fun e => decide (e.Is current)) = some e := by
  unfold findCurrent at found
  split at found
  · cases found
  · rename_i listed
    rw [not_or] at listed
    obtain ⟨accepted, member, before⟩ := List.find?_range_eq_some.1 found
    have inside := List.mem_range.1 member
    refine ⟨listed.1, listed.2, es[i], List.getElem?_eq_getElem inside, List.find?_eq_some_iff_getElem.2 ?_⟩
    rw [List.getElem?_eq_getElem inside] at accepted
    refine ⟨accepted, i, inside, rfl, fun j hj => ?_⟩
    have earlier := before j hj
    rwa [List.getElem?_eq_getElem (Nat.lt_trans hj inside)] at earlier

theorem findCurrent_isSome {e : Entry} (hosts : es.map Entry.host ≠ [[]]) (hostaddrs : es.map Entry.hostaddr ≠ [[]])
    (found : es.find? (fun e => decide (e.Is current)) = some e) : ∃ i, findCurrent current es = some i := by
  obtain ⟨accepted, i, inside, rfl, -⟩ := List.find?_eq_some_iff_getElem.1 found
  unfold findCurrent
  rw [if_neg (not_or.2 ⟨hosts, hostaddrs⟩)]
  refine Option.isSome_iff_exists.1 (List.find?_isSome.2 ⟨i, List.mem_range.2 inside, ?_⟩)
  rwa [List.getElem?_eq_getElem inside]

theorem plain_eraseIdx (plain : ∀ e ∈ es, e.Plain) (i : Nat) : ∀ e ∈ es.eraseIdx i, e.Plain :=
  fun e he => plain e (List.mem_of_mem_eraseIdx he)

/-- One entry is deleted exactly where it is found. -/
theorem deletes_iff_finds {c : Entry} (plain : ∀ e ∈ es, e.Plain) (hosts : es.map Entry.host ≠ [[]])
    (member : c ∈ es) : Deletes defPgport (c.report defPgport) es ↔ Finds defPgport (c.report defPgport) es := by
  have removed := @removeCurrentHost_entries (c.report defPgport) es plain rfl
  have nonempty := List.length_pos_of_mem member
  constructor
  · rintro ⟨i, e, at_i, equal, result⟩
    rw [removed] at result
    obtain ⟨inside, rfl⟩ := List.getElem?_eq_some_iff.1 at_i
    cases search : findCurrent (c.report defPgport) es with
    | none =>
      rw [search] at result
      have count : hostCount es = es.length - 1 := (Prod.mk.inj (Except.ok.inj result)).1
      rw [hostCount, if_neg hosts] at count
      omega
    | some j =>
      obtain ⟨-, listed, e, at_j, first⟩ := findCurrent_eq_some search
      obtain ⟨inside', rfl⟩ := List.getElem?_eq_some_iff.1 at_j
      rw [search] at result
      have opts : optsOf (es.eraseIdx j) = optsOf (es.eraseIdx i) := (Prod.mk.inj (Except.ok.inj result)).2
      have lists := optsOf_injective (plain_eraseIdx plain j) (plain_eraseIdx plain i)
        (by rw [← List.length_eq_zero_iff, ← List.length_eq_zero_iff, List.length_eraseIdx_of_lt inside,
          List.length_eraseIdx_of_lt inside']) opts
      exact ⟨listed, es[j], first, getElem_eq_of_eraseIdx inside' inside lists ▸ equal⟩
  · rintro ⟨hostaddrs, e, first, equal⟩
    obtain ⟨i, search⟩ := findCurrent_isSome hosts hostaddrs first
    obtain ⟨-, -, e', at_i, first'⟩ := findCurrent_eq_some search
    obtain rfl : e = e' := Option.some.inj (first.symm.trans first')
    refine ⟨i, e, at_i, equal, ?_⟩
    rw [removed, search]

/-- A round with a current connection that is one of the entries the connection was started with,
and is found when it is the first round after that. -/
structure GoodRound (defPgport : Int) (st : LoopState) (round : Round) (conn : List Entry) : Prop where
  nonempty : conn ≠ []
  plain : ∀ e ∈ conn, e.Plain
  started : st.started = optsOf conn
  current : ∃ c ∈ conn, round.current = c.report defPgport
  finds : st.iopts = st.started → Finds defPgport round.current conn

/-- The states of the loop after any number of good rounds. -/
inductive Run (defPgport : Int) (first : LoopState) : LoopState → Prop where
  | start : Run defPgport first first
  | round {st : LoopState} {round : Round} {conn : List Entry} : Run defPgport first st → st.ended = none →
      GoodRound defPgport st round conn → Run defPgport first (pollRound true st round)

/-- The entries left, and the ones the connection was started with: some were removed since, or
the connection is just started. Every restart has used up one of the `n` entries. -/
structure Progress (n : Nat) (st : LoopState) (left conn : List Entry) : Prop where
  plain : ∀ e ∈ left, e.Plain
  plainConn : ∀ e ∈ conn, e.Plain
  nonempty : conn ≠ []
  iopts : st.iopts = optsOf left
  started : st.started = optsOf conn
  fewer : left.length < conn.length ∨ left = conn
  restarts : conn.length + st.restarts ≤ n

/-- The entries left after one `remove_current_host`. -/
def afterRemove (current : Current) (es : List Entry) : List Entry :=
  match findCurrent current es with
  | none => es
  | some i => es.eraseIdx i

/-- How many hosts it says are left. -/
def countAfter (current : Current) (es : List Entry) : Nat :=
  match findCurrent current es with
  | none => hostCount es
  | some _ => es.length - 1

theorem removeCurrentHost_after (plain : ∀ e ∈ es, e.Plain) (reports : current.hostaddr.isSome = true) :
    removeCurrentHost current (optsOf es) = .ok (countAfter current es, optsOf (afterRemove current es)) := by
  rw [removeCurrentHost_entries plain reports, countAfter, afterRemove]
  cases findCurrent current es <;> rfl

theorem findCurrent_lt {i : Nat} (found : findCurrent current es = some i) : i < es.length := by
  obtain ⟨-, -, e, at_i, -⟩ := findCurrent_eq_some found
  exact (List.getElem?_eq_some_iff.1 at_i).1

theorem afterRemove_plain (plain : ∀ e ∈ es, e.Plain) : ∀ e ∈ afterRemove current es, e.Plain := by
  unfold afterRemove
  split
  · exact plain
  · exact plain_eraseIdx plain _

theorem afterRemove_fewer : (afterRemove current es).length < es.length ∨ afterRemove current es = es := by
  unfold afterRemove
  split
  · exact Or.inr rfl
  · rename_i i found
    have inside := findCurrent_lt found
    rw [List.length_eraseIdx_of_lt inside]
    omega

theorem afterRemove_ne_nil (positive : 0 < countAfter current es) : afterRemove current es ≠ [] := by
  unfold countAfter at positive
  unfold afterRemove
  split at positive
  · rintro rfl
    cases positive
  · rename_i i found
    have inside := findCurrent_lt found
    rintro empty
    have length := List.length_eraseIdx_of_lt inside
    rw [show es.eraseIdx i = [] from empty] at length
    simp only [List.length_nil] at length
    omega

/-- Where the current entry is found, one is gone or none is counted. -/
theorem afterRemove_lt_of_finds (finds : Finds defPgport current es) (positive : 0 < countAfter current es) :
    (afterRemove current es).length < es.length := by
  obtain ⟨hostaddrs, e, first, -⟩ := finds
  by_cases hosts : es.map Entry.host = [[]]
  · rw [countAfter, findCurrent, if_pos (Or.inl hosts)] at positive
    simp [hostCount, hosts] at positive
  · obtain ⟨i, found⟩ := findCurrent_isSome hosts hostaddrs first
    have inside := findCurrent_lt found
    rw [afterRemove, found]
    show (es.eraseIdx i).length < es.length
    rw [List.length_eraseIdx_of_lt inside]
    omega

/-- What the loop does in one round, in terms of the entries. -/
theorem pollRound_entries {st : LoopState} {round : Round} {left : List Entry} (iopts : st.iopts = optsOf left)
    (plain : ∀ e ∈ left, e.Plain) (reports : round.current.hostaddr.isSome = true) :
    pollRound true st round =
      if round.event then
        { st with
          iopts := optsOf (afterRemove round.current left), pollStatus := round.poll
          ended := if round.poll = .ok ∨ round.poll = .failed then some (.polled round.poll) else none }
      else if 0 < countAfter round.current left then
        { st with
          iopts := optsOf (afterRemove round.current left), started := optsOf (afterRemove round.current left)
          pollStatus := .writing, restarts := st.restarts + 1 }
      else { st with iopts := optsOf (afterRemove round.current left), ended := some .timedOut } := by
  unfold pollRound
  rw [iopts, removeCurrentHost_after plain reports]
  simp only [Bool.not_true, Bool.or_false]

section Rounds

variable {n : Nat} {st : LoopState} {round : Round} {left conn : List Entry}

/-- The entries of a good round are the ones of the connection. -/
theorem GoodRound.conn_eq {conn' : List Entry} (good : GoodRound defPgport st round conn')
    (progress : Progress n st left conn) : conn' = conn :=
  optsOf_injective good.plain progress.plainConn (by simp [good.nonempty, progress.nonempty])
    (good.started.symm.trans progress.started)

theorem GoodRound.reports (good : GoodRound defPgport st round conn) :
    round.current.hostaddr.isSome = true := by
  obtain ⟨c, -, equal⟩ := good.current
  rw [equal]
  rfl

/-- In a good round there are fewer entries left than the connection was started with. -/
theorem GoodRound.fewer (good : GoodRound defPgport st round conn) (progress : Progress n st left conn)
    (positive : 0 < countAfter round.current left) : (afterRemove round.current left).length < conn.length := by
  obtain fewer | rfl := progress.fewer
  · obtain less | same := @afterRemove_fewer round.current left
    · omega
    · rwa [same]
  · exact afterRemove_lt_of_finds (good.finds (progress.iopts.trans progress.started.symm)) positive

theorem Progress.fewer_or_eq (progress : Progress n st left conn) :
    (afterRemove round.current left).length < conn.length ∨ afterRemove round.current left = conn := by
  obtain fewer | rfl := progress.fewer
  · obtain less | same := @afterRemove_fewer round.current left
    · exact Or.inl (Nat.lt_trans less fewer)
    · rw [same]
      exact Or.inl fewer
  · exact afterRemove_fewer

/-- A timeout raises, or restarts with fewer entries. -/
theorem timeout_round (good : GoodRound defPgport st round conn) (progress : Progress n st left conn)
    (running : st.ended = none) (timeout : round.event = false) :
    (pollRound true st round).ended = some .timedOut ∨
      ∃ conn', conn' ≠ [] ∧ conn'.length < conn.length ∧
        pollRound true st round =
          { iopts := optsOf conn', started := optsOf conn', restarts := st.restarts + 1 } := by
  rw [pollRound_entries progress.iopts progress.plain good.reports, timeout]
  by_cases positive : 0 < countAfter round.current left
  · refine Or.inr ⟨_, afterRemove_ne_nil positive, good.fewer progress positive, ?_⟩
    simp [positive, running]
  · simp [positive]

/-- One good round keeps the progress. -/
theorem Progress.step (progress : Progress n st left conn) (good : GoodRound defPgport st round conn) :
    ∃ left' conn', Progress n (pollRound true st round) left' conn' := by
  rw [pollRound_entries progress.iopts progress.plain good.reports]
  have plain : ∀ e ∈ afterRemove round.current left, e.Plain := afterRemove_plain progress.plain
  have fewer := @Progress.fewer_or_eq n st round left conn progress
  split
  · exact ⟨_, conn, plain, progress.plainConn, progress.nonempty, rfl, progress.started, fewer, progress.restarts⟩
  · split
    · rename_i positive
      have less := good.fewer progress positive
      have used := progress.restarts
      exact ⟨_, _, plain, plain, afterRemove_ne_nil positive, rfl, rfl, Or.inr rfl, by simp only; omega⟩
    · exact ⟨_, conn, plain, progress.plainConn, progress.nonempty, rfl, progress.started, fewer, progress.restarts⟩

theorem startLoop_progress (plain : ∀ e ∈ es, e.Plain) (nonempty : es ≠ []) :
    Progress es.length (startLoop (optsOf es)) es es :=
  ⟨plain, plain, nonempty, rfl, rfl, Or.inr rfl, Nat.le_refl _⟩

theorem Run.progress (plain : ∀ e ∈ es, e.Plain) (nonempty : es ≠ [])
    (run : Run defPgport (startLoop (optsOf es)) st) : ∃ left conn, Progress es.length st left conn := by
  induction run with
  | start => exact ⟨es, es, startLoop_progress plain nonempty⟩
  | round _ _ good ih =>
    obtain ⟨left, conn, progress⟩ := ih
    obtain rfl := good.conn_eq progress
    exact progress.step good

/-- The loop restarts less often than there are entries. -/
theorem Run.restarts_lt (plain : ∀ e ∈ es, e.Plain) (nonempty : es ≠ []) (run : Run defPgport (startLoop (optsOf es)) st) :
    st.restarts < es.length := by
  obtain ⟨left, conn, progress⟩ := run.progress plain nonempty
  have used := progress.restarts
  have some : 0 < conn.length := List.length_pos_of_ne_nil progress.nonempty
  omega

end Rounds

/-- Digits read the same for Ruby and for libpq. -/
theorem leadingUnderscored_digits {s : Bytes} (digits : ∀ d ∈ s, IsDigit d) (acc : Nat) :
    leadingUnderscored acc s = leadingDigits acc s := by
  induction s generalizing acc with
  | nil => rfl
  | cons d rest ih =>
    have digit := digits d List.mem_cons_self
    have later := ih fun c hc => digits c (List.mem_cons_of_mem _ hc)
    unfold leadingUnderscored leadingDigits
    rw [if_pos digit, if_pos digit]
    split
    · exact absurd (digits 0x5f (by simp)) (by decide)
    · exact later _

theorem splitSign_digits {s : Bytes} (digits : ∀ d ∈ s, IsDigit d) : splitSign s = (false, s) := by
  have spaces : ∀ d : UInt8, IsDigit d → isSpace d = false := by
    intro d digit
    simp only [isSpace, Bool.or_eq_false_iff, beq_eq_false_iff_ne]
    and_intros <;> rintro rfl <;> exact absurd digit (by decide)
  have kept : s.dropWhile isSpace = s := by
    cases s with
    | nil => rfl
    | cons d rest => simp [spaces d (digits d List.mem_cons_self)]
  unfold splitSign
  rw [kept]
  split
  · exact absurd (digits 0x2d (by simp)) (by decide)
  · exact absurd (digits 0x2b (by simp)) (by decide)
  · rfl

theorem toI_digits {s : Bytes} (digits : ∀ d ∈ s, IsDigit d) : toI s = atoi s := by
  unfold toI atoi
  rw [splitSign_digits digits]
  simp only [Bool.false_eq_true, if_false]
  rw [← leadingUnderscored_digits digits]
  split
  · exact absurd (digits 0x64 (by simp)) (by decide)
  · exact absurd (digits 0x44 (by simp)) (by decide)
  · rfl

/-- With ports in digits, or left to the default, the current entry is found exactly where an entry equal
to it has its port written out, and hostaddrs are listed at all. -/
theorem finds_iff_of_digits {c : Entry} (digits : ∀ e ∈ es, ∀ d ∈ e.port, IsDigit d)
    (positive : (c.report defPgport).port ≠ 0) :
    Finds defPgport (c.report defPgport) es ↔
      es.map Entry.hostaddr ≠ [[]] ∧ ∃ e ∈ es, e.report defPgport = c.report defPgport ∧ e.port ≠ [] := by
  have written : ∀ e : Entry, e.Is (c.report defPgport) → e.port ≠ [] := by
    intro e accepted empty
    have port := accepted.2.2
    rw [empty] at port
    exact positive port.symm
  have reads : ∀ e ∈ es, e.port ≠ [] → toI e.port = (e.report defPgport).port := by
    intro e member given
    rw [toI_digits (digits e member), Entry.report, if_neg given]
  refine and_congr_right fun _ => ?_
  constructor
  · rintro ⟨e, found, equal⟩
    exact ⟨e, List.mem_of_find?_eq_some found, equal, written e (by simpa using List.find?_some found)⟩
  · rintro ⟨e, member, equal, given⟩
    have accepted : e.Is (c.report defPgport) := by
      rw [← equal]
      exact ⟨rfl, rfl, reads e member given⟩
    obtain ⟨first, found⟩ := Option.isSome_iff_exists.1
      (List.find?_isSome.2 ⟨e, member, decide_eq_true accepted⟩ :
        (es.find? fun e => decide (e.Is (c.report defPgport))).isSome = true)
    have accepted' : first.Is (c.report defPgport) := by simpa using List.find?_some found
    have port := reads first (List.mem_of_find?_eq_some found) (written first accepted')
    obtain ⟨host, hostaddr, port'⟩ := accepted'
    refine ⟨first, found, ?_⟩
    rw [port] at port'
    simp only [Entry.report, Current.mk.injEq] at port' ⊢
    exact ⟨host, hostaddr, port'⟩

/-- **Restarts on timeouts.** The current entry is deleted exactly where it is found; and as long as
each start of the connection finds it, the loop restarts less often than there are entries, each time
with fewer of them, and then raises. -/
theorem connect_restarts (defPgport : Int) (es : List Entry) (nonempty : es ≠ []) (plain : ∀ e ∈ es, e.Plain)
    (hosts : es.map Entry.host ≠ [[]]) :
    (∀ c ∈ es, Deletes defPgport (c.report defPgport) es ↔ Finds defPgport (c.report defPgport) es) ∧
      ∀ st, Run defPgport (startLoop (optsOf es)) st →
        st.restarts ≤ es.length - 1 ∧
          ∀ round conn, st.ended = none → GoodRound defPgport st round conn → round.event = false →
            (pollRound true st round).ended = some .timedOut ∨
              ∃ conn', conn' ≠ [] ∧ conn'.length < conn.length ∧
                pollRound true st round =
                  { iopts := optsOf conn', started := optsOf conn', restarts := st.restarts + 1 } := by
  refine ⟨fun c member => deletes_iff_finds plain hosts member, fun st run => ?_⟩
  refine ⟨Nat.le_sub_one_of_lt (run.restarts_lt plain nonempty), fun round conn' running good timeout => ?_⟩
  obtain ⟨left, conn, progress⟩ := run.progress plain nonempty
  obtain rfl := good.conn_eq progress
  exact timeout_round good progress running timeout

/-- So it is for the options that `resolve_hosts` makes of hosts that are given, whatever they resolve to. -/
theorem resolved_restarts {windows : Bool} {getaddrinfo : Bytes → Option (List Bytes)} {iopts opts : Opts}
    (resolves : Resolves getaddrinfo) (given : iopts.host ≠ some [])
    (resolved : resolveHosts windows getaddrinfo iopts = .ok opts) :
    ∃ es : List Entry, opts = optsOf es ∧
      (∀ c ∈ es, Deletes defPgport (c.report defPgport) es ↔ Finds defPgport (c.report defPgport) es) ∧
      ∀ st, Run defPgport (startLoop opts) st → st.restarts < es.length := by
  obtain ⟨es, nonempty, plain, hosts, rfl⟩ := resolveHosts_entries resolves given resolved
  exact ⟨es, rfl, fun c member => deletes_iff_finds plain hosts member, fun st run => run.restarts_lt plain nonempty⟩

/-- A single entry without hostaddr is started again at every timeout, for ever. -/
theorem single_socket_restarts {e : Entry} (plain : e.Plain) (host : e.host ≠ []) (socket : e.hostaddr = [])
    (poll : PollStatus) (k : Nat) :
    (fun st => pollRound true st ⟨e.report defPgport, false, poll⟩)^[k] (startLoop (optsOf [e])) =
      { startLoop (optsOf [e]) with restarts := k } := by
  have plains : ∀ e' ∈ [e], e'.Plain := by simpa using plain
  have missing : findCurrent (e.report defPgport) [e] = none := by simp [findCurrent, socket]
  have one : hostCount [e] = 1 := by simp [hostCount, host]
  induction k with
  | zero => rfl
  | succ k ih =>
    rw [Function.iterate_succ_apply', ih, pollRound_entries rfl plains rfl]
    simp [countAfter, afterRemove, missing, one, startLoop]

/-- Two addresses of one host. -/
def twoAddresses : List Entry :=
  [⟨[0x64, 0x62], [0x3a, 0x3a, 0x31], [0x35, 0x34, 0x33, 0x32]⟩,
    ⟨[0x64, 0x62], [0x3a, 0x3a, 0x32], [0x35, 0x34, 0x33, 0x32]⟩]

/-- A single Unix socket, `/tmp`. -/
def tmpSocket : Entry := ⟨[0x2f, 0x74, 0x6d, 0x70], [], [0x35, 0x34, 0x33, 0x32]⟩

/-- Both addresses time out: one restart, and then the error. -/
theorem connect_restarts_two_addresses :
    Run 5432 (startLoop (optsOf twoAddresses))
        (pollRound true (startLoop (optsOf twoAddresses)) ⟨twoAddresses[0].report 5432, false, .writing⟩) ∧
      (pollRound true (startLoop (optsOf twoAddresses)) ⟨twoAddresses[0].report 5432, false, .writing⟩).restarts
        ≤ 1 := by
  have plain : ∀ e ∈ twoAddresses, e.Plain := by
    intro e he
    simp only [twoAddresses, List.mem_cons, List.not_mem_nil, or_false] at he
    obtain rfl | rfl := he <;> exact ⟨by decide, by decide, by decide⟩
  have finds : Finds 5432 (twoAddresses[0].report 5432) twoAddresses := by
    refine ⟨by decide, twoAddresses[0], by decide, rfl⟩
  have run : Run 5432 (startLoop (optsOf twoAddresses))
      (pollRound true (startLoop (optsOf twoAddresses)) ⟨twoAddresses[0].report 5432, false, .writing⟩) :=
    .round .start rfl ⟨by decide, plain, rfl, ⟨twoAddresses[0], by decide, rfl⟩, fun _ => finds⟩
  have bounded := (connect_restarts 5432 twoAddresses (by decide) plain (by decide)).2 _ run
  exact ⟨run, bounded.1⟩

/-- A single Unix socket is never found: every timeout starts again with the same socket. -/
theorem connect_restarts_unix_socket :
    ¬Deletes 5432 (tmpSocket.report 5432) [tmpSocket] ∧
      removeCurrentHost (tmpSocket.report 5432) (optsOf [tmpSocket]) = .ok (1, optsOf [tmpSocket]) ∧
      (pollRound true (pollRound true (startLoop (optsOf [tmpSocket])) ⟨tmpSocket.report 5432, false, .writing⟩)
          ⟨tmpSocket.report 5432, false, .writing⟩) =
        { startLoop (optsOf [tmpSocket]) with restarts := 2 } := by
  have unchanged : removeCurrentHost (tmpSocket.report 5432) (optsOf [tmpSocket]) = .ok (1, optsOf [tmpSocket]) := by
    decide +kernel
  refine ⟨?_, unchanged, by decide +kernel⟩
  rintro ⟨i, e, -, -, result⟩
  rw [unchanged] at result
  cases result

end RubyPg.Connect
