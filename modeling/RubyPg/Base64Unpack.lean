import RubyPg.Base64Codec

/-!
# Base64 of Ruby

`String#unpack` with `m` skips what is outside the alphabet, too, but a `=` where the third or the fourth
character of a group is expected ends the text. `rbpg_base64_decode` skips every `=`. So the two agree where no
character of the alphabet is left behind such a `=`, and nowhere else.
-/

namespace RubyPg.Base64
set_option autoImplicit false
open Sextets TwoPass

/-- `unpack('m')` in the middle of a group. -/
def unpackGroup (group : List Nat) : Bytes → Bytes
  | [] => ofSextets group
  | c :: t =>
    match sextetOf c with
    | some n => if group.length = 3 then ofSextets (group ++ [n]) ++ unpackGroup [] t else unpackGroup (group ++ [n]) t
    | none => if c = Ascii.equals ∧ 2 ≤ group.length then ofSextets group else unpackGroup group t

/-- `s.unpack('m')[0]`. -/
def unpack (s : Bytes) : Bytes := unpackGroup [] s

/-- Nothing stands behind a `=` that is met in the second half of a group, `before` characters of which came first. -/
def EndsAtPadding (before : Nat) (s : Bytes) : Prop :=
  ∀ u v, s = u ++ Ascii.equals :: v → 2 ≤ (before + (sextetsOf u).length) % 4 → sextetsOf v = []

section Conditions

variable {before : Nat} {c : UInt8} {t : Bytes}

theorem sextetsOf_cons_none (skipped : sextetOf c = none) : sextetsOf (c :: t) = sextetsOf t :=
  List.filterMap_cons_none skipped

theorem sextetsOf_cons_some {n : Nat} (read : sextetOf c = some n) : sextetsOf (c :: t) = n :: sextetsOf t :=
  List.filterMap_cons_some read

theorem endsAtPadding_nil : EndsAtPadding before [] := by
  intro u v split
  simp at split

/-- The position in the group is all that counts. -/
theorem endsAtPadding_mod {before' : Nat} (same : before % 4 = before' % 4) :
    EndsAtPadding before t ↔ EndsAtPadding before' t := by
  unfold EndsAtPadding
  have position : ∀ n, (before + n) % 4 = (before' + n) % 4 := fun n => by omega
  simp only [position]

theorem endsAtPadding_read {n : Nat} (read : sextetOf c = some n) :
    EndsAtPadding before (c :: t) ↔ EndsAtPadding (before + 1) t := by
  constructor
  · rintro ends u v rfl inside
    apply ends (c :: u) v rfl
    rw [sextetsOf_cons_some read, List.length_cons]
    omega
  · intro ends u v split inside
    cases u with
    | nil =>
      obtain ⟨rfl, -⟩ := List.cons_eq_cons.1 split
      rw [sextetOf_equals] at read
      cases read
    | cons d u =>
      obtain ⟨rfl, rfl⟩ := List.cons_eq_cons.1 split
      rw [sextetsOf_cons_some read, List.length_cons] at inside
      apply ends u v rfl
      omega

theorem endsAtPadding_skipped (skipped : sextetOf c = none) (harmless : ¬(c = Ascii.equals ∧ 2 ≤ before % 4)) :
    EndsAtPadding before (c :: t) ↔ EndsAtPadding before t := by
  constructor
  · rintro ends u v rfl inside
    apply ends (c :: u) v rfl
    rwa [sextetsOf_cons_none skipped]
  · intro ends u v split inside
    cases u with
    | nil =>
      obtain ⟨rfl, -⟩ := List.cons_eq_cons.1 split
      exact absurd ⟨rfl, inside⟩ harmless
    | cons d u =>
      obtain ⟨rfl, rfl⟩ := List.cons_eq_cons.1 split
      rw [sextetsOf_cons_none skipped] at inside
      exact ends u v rfl inside

theorem endsAtPadding_padding (second : 2 ≤ before % 4) :
    EndsAtPadding before (Ascii.equals :: t) ↔ sextetsOf t = [] := by
  constructor
  · intro ends
    exact ends [] t rfl second
  · intro nothing u v split _
    have whole : sextetsOf (Ascii.equals :: t) = [] := by rw [sextetsOf_cons_none sextetOf_equals, nothing]
    rw [split, sextetsOf_append, sextetsOf_cons_none sextetOf_equals] at whole
    exact (List.append_eq_nil_iff.1 whole).2

end Conditions

section Agreement

variable {group : List Nat}

/-- A full group is done with. -/
theorem ofSextets_full (full : group.length = 4) (rest : List Nat) : ofSextets (group ++ rest) = ofSextets group ++ ofSextets rest := by
  obtain ⟨a, b, c, d, rfl⟩ := List.length_eq_four.1 full
  simp [ofSextets]

/-- In the second half of a group another number means another byte. -/
theorem ofSextets_more (second : 2 ≤ group.length) (open' : group.length < 4) {rest : List Nat} :
    ofSextets group = ofSextets (group ++ rest) ↔ rest = [] := by
  constructor
  · intro same
    have length := congrArg List.length same
    rw [length_ofSextets, length_ofSextets, List.length_append] at length
    apply List.eq_nil_of_length_eq_zero
    have half : group.length = 2 ∨ group.length = 3 := by omega
    rcases half with two | three
    · omega
    · omega
  · rintro rfl
    rw [List.append_nil]

/-- The two decoders, from the middle of a group on. -/
theorem unpackGroup_eq_iff (inside : group.length < 4) (t : Bytes) :
    unpackGroup group t = ofSextets (group ++ sextetsOf t) ↔ EndsAtPadding group.length t := by
  induction t generalizing group with
  | nil => simp [unpackGroup, sextetsOf, endsAtPadding_nil]
  | cons c t ih =>
    unfold unpackGroup
    cases read : sextetOf c with
    | some n =>
      dsimp only
      have regroup : group ++ n :: sextetsOf t = group ++ [n] ++ sextetsOf t := List.append_cons _ _ _
      rw [sextetsOf_cons_some read, endsAtPadding_read read, regroup]
      by_cases full : group.length = 3
      · have four : (group ++ [n]).length = 4 := by simp [full]
        have next : EndsAtPadding (group.length + 1) t ↔ EndsAtPadding ([] : List Nat).length t :=
          endsAtPadding_mod (by simp [full])
        rw [if_pos full, ofSextets_full four, List.append_cancel_left_eq, next]
        have short : ([] : List Nat).length < 4 := by simp
        exact ih short
      · have more : (group ++ [n]).length = group.length + 1 := by simp
        rw [if_neg full, ← more]
        exact ih (by omega)
    | none =>
      dsimp only
      rw [sextetsOf_cons_none read]
      by_cases padding : c = Ascii.equals ∧ 2 ≤ group.length
      · obtain ⟨rfl, second⟩ := padding
        rw [if_pos ⟨rfl, second⟩, endsAtPadding_padding (by omega)]
        exact ofSextets_more second inside
      · rw [if_neg padding, endsAtPadding_skipped read fun both => padding ⟨both.1, by omega⟩]
        exact ih inside

theorem sextetOf_none (c : UInt8) : sextetOf c = none ↔ c ∉ alphabet := by
  rw [mem_alphabet, not_not]
  unfold sextetOf
  split <;> simp_all

theorem sextetsOf_nil (t : Bytes) : sextetsOf t = [] ↔ ∀ c ∈ t, c ∉ alphabet := by
  unfold sextetsOf
  simp only [List.filterMap_eq_nil_iff, sextetOf_none]

theorem length_sextetsOf (t : Bytes) : (sextetsOf t).length = (t.filter (· ∈ alphabet)).length := by
  induction t with
  | nil => simp [sextetsOf]
  | cons c t ih =>
    cases read : sextetOf c with
    | some n =>
      have member : c ∈ alphabet := by
        by_contra other
        rw [(sextetOf_none c).2 other] at read
        cases read
      rw [sextetsOf_cons_some read, List.filter_cons_of_pos (by simpa using member), List.length_cons, ih, List.length_cons]
    | none =>
      have other := (sextetOf_none c).1 read
      rw [sextetsOf_cons_none read, List.filter_cons_of_neg (by simpa using other), ih]

/-- **Ruby's base64.** Decoding gives what Ruby gives if, and only if, no character of the alphabet stands behind a
`=` that is met where the third or the fourth character of a group is expected. -/
theorem decodes_as_unpack_iff (s : Bytes) :
    unbase64String s = .ok (unpack s) ↔
      ∀ u v, s = u ++ Ascii.equals :: v → 2 ≤ (u.filter (· ∈ alphabet)).length % 4 → ∀ c ∈ v, c ∉ alphabet := by
  have agree : unpackGroup [] s = ofSextets ([] ++ sextetsOf s) ↔ EndsAtPadding ([] : List Nat).length s :=
    unpackGroup_eq_iff (by simp) s
  unfold EndsAtPadding at agree
  simp only [List.nil_append, List.length_nil, Nat.zero_add, sextetsOf_nil, length_sextetsOf] at agree
  rw [unbase64String_eq, Except.ok.injEq, eq_comm]
  exact agree

/-- `YQ==Yg==`: Ruby ends at the first `=`. -/
theorem unpack_ends_early :
    unbase64String [0x59, 0x51, 0x3d, 0x3d, 0x59, 0x67, 0x3d, 0x3d] = .ok [0x61, 0x06, 0x20] ∧
      unpack [0x59, 0x51, 0x3d, 0x3d, 0x59, 0x67, 0x3d, 0x3d] = [0x61] := by
  rw [unbase64String_eq, Except.ok.injEq]
  constructor
  · decide +kernel
  · decide +kernel

end Agreement

end RubyPg.Base64
