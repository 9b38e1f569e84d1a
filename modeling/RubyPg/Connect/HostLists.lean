import RubyPg.Connect.PollingLoop
import Mathlib.Data.List.InsertIdx

/-!
# The host lists of a connection attempt

The options as `resolve_hosts` leaves them are the joined columns of a list of entries
(`optsOf`). Splitting a column gives it back, except that a column of one empty field
splits into nothing (`rbSplit_column`). From this, what `remove_current_host` does to the
entries (`removeCurrentHost_entries`), and so what a run of the loop does to their number.
-/

namespace RubyPg.Connect
set_option autoImplicit false
open Ascii

/-- One host to try. -/
structure Entry where
  host : Bytes
  hostaddr : Bytes
  port : Bytes
deriving DecidableEq, Repr

/-- An entry whose fields can stand in a comma separated list. -/
structure Entry.Plain (e : Entry) : Prop where
  host : comma ∉ e.host
  hostaddr : comma ∉ e.hostaddr
  port : comma ∉ e.port

/-- The options of a list of entries. -/
def optsOf (es : List Entry) : Opts where
  host := some (rbJoin (es.map Entry.host))
  hostaddr := some (rbJoin (es.map Entry.hostaddr))
  port := some (rbJoin (es.map Entry.port))

/-- What libpq reports about an entry: its host, its hostaddr, and its port or the default. -/
def Entry.report (defPgport : Int) (e : Entry) : Current where
  host := e.host
  hostaddr := some e.hostaddr
  port := if e.port = [] then defPgport else atoi e.port

/-- The entry is the current one, as far as the strings tell. -/
def Entry.Is (current : Current) (e : Entry) : Prop :=
  e.host = current.host ∧ some e.hostaddr = current.hostaddr ∧ toI e.port = current.port

instance (current : Current) (e : Entry) : Decidable (e.Is current) := inferInstanceAs (Decidable (_ ∧ _ ∧ _))

theorem rbJoin_eq_nil {column : List Bytes} (nonempty : column ≠ []) : rbJoin column = [] ↔ column = [[]] := by
  match column with
  | [] => exact absurd rfl nonempty
  | [s] => simp [rbJoin]
  | s :: t :: rest => simp [rbJoin, List.intercalate_cons_cons]

/-- What the joined column of a field splits into: its fields, except one empty field. -/
def column (f : Entry → Bytes) (es : List Entry) : List Bytes := if es.map f = [[]] then [] else es.map f

theorem rbSplit_column {f : Entry → Bytes} {es : List Entry} (plain : ∀ e ∈ es, comma ∉ f e) :
    rbSplit (rbJoin (es.map f)) = column f es := by
  have fields : ∀ s ∈ es.map f, comma ∉ s := by
    simp only [List.mem_map]
    rintro s ⟨e, he, rfl⟩
    exact plain e he
  unfold rbSplit column
  by_cases empty : es.map f = []
  · rw [empty]
    rfl
  · by_cases single : es.map f = [[]]
    · rw [if_pos ((rbJoin_eq_nil empty).2 single), if_pos single]
    · rw [if_neg fun h => single ((rbJoin_eq_nil empty).1 h), if_neg single]
      exact List.splitOn_intercalate comma fields empty

/-- The entry that `remove_current_host` takes out: none where the only host or hostaddr is empty. -/
def findCurrent (current : Current) (es : List Entry) : Option Nat :=
  if es.map Entry.host = [[]] ∨ es.map Entry.hostaddr = [[]] then none
  else (List.range es.length).find? fun i => (es[i]?.map fun e => decide (e.Is current)).getD false

/-- How many hosts it counts. -/
def hostCount (es : List Entry) : Nat := if es.map Entry.host = [[]] then 0 else es.length

section Columns

variable {es : List Entry} {f : Entry → Bytes}

/-- Only the column of a single entry gets lost. -/
theorem single_of_lost (lost : es.map f = [[]]) : ∃ e, es = [e] ∧ f e = [] := by
  have single : es.length = 1 := by rw [← List.length_map f, lost]; rfl
  obtain ⟨e, rfl⟩ := List.length_eq_one_iff.1 single
  exact ⟨e, rfl, by simpa using lost⟩

/-- A lost column reads as an empty field. -/
theorem column_toI {i : Nat} {e : Entry} (found : es[i]? = some e) :
    ((column f es)[i]?.map toI).getD 0 = toI (f e) := by
  unfold column
  by_cases lost : es.map f = [[]]
  · obtain ⟨e', rfl, empty⟩ := single_of_lost lost
    obtain rfl : e' = e := by
      cases i with
      | zero => simpa using found
      | succ i => cases found
    rw [if_pos lost, empty]
    rfl
  · rw [if_neg lost, List.getElem?_map, found]
    rfl

theorem column_eraseIdx {i : Nat} (inside : i < es.length) :
    rbJoin ((column f es).eraseIdx i) = rbJoin ((es.eraseIdx i).map f) := by
  unfold column
  by_cases lost : es.map f = [[]]
  · obtain ⟨e, rfl, -⟩ := single_of_lost lost
    obtain rfl : i = 0 := by simpa using inside
    rw [if_pos lost]
    rfl
  · rw [if_neg lost, List.eraseIdx_map]

/-- Ports are only spread where there is nothing to spread. -/
theorem spreadPorts_column (hosts : column Entry.host es = es.map Entry.host) (hostaddrs : Option (List Bytes)) :
    spreadPorts (some (column Entry.host es)) hostaddrs (column f es) = column f es := by
  unfold spreadPorts
  split
  · rename_i single
    have length : es.length = 1 := by
      unfold column at single
      split at single
      · cases single
      · rwa [List.length_map] at single
    rw [hosts]
    simp [length]
  · rfl

end Columns

theorem find?_congr {α : Type} {p q : α → Bool} {l : List α} (same : ∀ a ∈ l, p a = q a) : l.find? p = l.find? q := by
  induction l with
  | nil => rfl
  | cons a l ih =>
    rw [List.find?_cons, List.find?_cons, same a List.mem_cons_self, ih fun b hb => same b (List.mem_cons_of_mem _ hb)]

/-- **What `remove_current_host` does to the entries.** -/
theorem removeCurrentHost_entries {current : Current} {es : List Entry} (plain : ∀ e ∈ es, e.Plain)
    (reports : current.hostaddr.isSome = true) :
    removeCurrentHost current (optsOf es) = .ok (match findCurrent current es with
      | none => (hostCount es, optsOf es)
      | some i => (es.length - 1, optsOf (es.eraseIdx i))) := by
  obtain ⟨hostaddr, reported⟩ := Option.isSome_iff_exists.1 reports
  have hosts := rbSplit_column fun e he => (plain e he).host
  have hostaddrs := rbSplit_column fun e he => (plain e he).hostaddr
  have ports := rbSplit_column fun e he => (plain e he).port
  by_cases hostLost : es.map Entry.host = [[]]
  · have noHosts : column Entry.host es = [] := if_pos hostLost
    rw [findCurrent, hostCount, if_pos (Or.inl hostLost), if_pos hostLost]
    simp only [removeCurrentHost, optsOf, Option.map_some, hosts, noHosts, HOrElse.hOrElse, OrElse.orElse,
      Option.orElse]
    rfl
  · have listed : column Entry.host es = es.map Entry.host := if_neg hostLost
    have unfolded : removeCurrentHost current (optsOf es) =
        match (List.range es.length).find? (isCurrent current (some (column Entry.host es))
          (some (column Entry.hostaddr es)) (some (column Entry.port es))) with
        | none => .ok (es.length, optsOf es)
        | some idx => .ok (es.length - 1,
            { host := some (rbJoin ((column Entry.host es).eraseIdx idx))
              hostaddr := some (rbJoin ((column Entry.hostaddr es).eraseIdx idx))
              port := some (rbJoin ((column Entry.port es).eraseIdx idx)) }) := by
      simp only [removeCurrentHost, optsOf, Option.map_some, hosts, hostaddrs, ports,
        spreadPorts_column listed, HOrElse.hOrElse, OrElse.orElse, Option.orElse]
      rw [listed, List.length_map]
      rfl
    have same : ∀ i ∈ List.range es.length, isCurrent current (some (column Entry.host es))
        (some (column Entry.hostaddr es)) (some (column Entry.port es)) i =
          (decide (es.map Entry.hostaddr ≠ [[]]) && (es[i]?.map fun e => decide (e.Is current)).getD false) := by
      intro i member
      have inside := List.mem_range.1 member
      have found := List.getElem?_eq_getElem inside
      unfold isCurrent
      rw [listed, reported]
      simp only [column_toI found]
      unfold column
      by_cases addrLost : es.map Entry.hostaddr = [[]]
      · simp [addrLost]
      · simp [addrLost, Entry.Is, reported, Bool.and_assoc, inside]
    rw [unfolded, find?_congr same]
    by_cases addrLost : es.map Entry.hostaddr = [[]]
    · have nothing : (List.range es.length).find? (fun _ => false) = none := List.find?_eq_none.2 (by simp)
      simp [addrLost, findCurrent, hostCount, hostLost, nothing]
    · simp only [findCurrent, hostCount, hostLost, addrLost, false_or, if_false, ne_eq, not_false_eq_true,
        decide_true, Bool.true_and]
      cases search : (List.range es.length).find? fun i => (es[i]?.map fun e => decide (e.Is current)).getD false with
      | none => rfl
      | some i =>
        have inside : i < es.length := List.mem_range.1 (List.mem_of_find?_eq_some search)
        simp only [column_eraseIdx inside]
        rfl

end RubyPg.Connect
