import RubyPg.Lib.Scan
import RubyPg.Lib.Sextets
import RubyPg.TwoPass.Composite

/-!
# What base64 encodes and decodes

Encoding fills its output with the characters of the numbers of six bits (`rbpgBase64Encode_fills`), decoding
stores the bytes of those characters that stand for a number, and skips all others
(`rbpgBase64Decode_given`), whichever of its two loops they fall to.
-/

namespace RubyPg.Base64
set_option autoImplicit false
open Writer Sextets TwoPass

/-- A separate buffer with the input. -/
abbrev given (s : Bytes) : Nat → Writer Stop UInt8 := fun i => pure (memOf s i)

section Tables

/-- What a character stands for. -/
def sextetOf (c : UInt8) : Option Nat := if base64DecodeTable c = 0xff then none else some (base64DecodeTable c).toNat

/-- The characters that stand for a number. -/
def alphabet : Bytes := (List.range 64).map base64EncodeTable

/-- The numbers that the characters of a text stand for. -/
def sextetsOf (text : Bytes) : List Nat := text.filterMap sextetOf

theorem decodeTable_lt {c : UInt8} (valid : base64DecodeTable c ≠ 0xff) : (base64DecodeTable c).toNat < 64 := by
  have all : ∀ n : Fin 256, base64DecodeTable (UInt8.ofNat n) = 0xff ∨ (base64DecodeTable (UInt8.ofNat n)).toNat < 64 := by
    decide +kernel
  have here := all ⟨c.toNat, c.toNat_lt⟩
  rw [UInt8.ofNat_toNat] at here
  exact here.resolve_left valid

theorem sextetOf_encodeTable {n : Nat} (small : n < 64) : sextetOf (base64EncodeTable n) = some n := by
  have all : ∀ n : Fin 64, sextetOf (base64EncodeTable n) = some n.val := by decide +kernel
  exact all ⟨n, small⟩

theorem sextetOf_equals : sextetOf Ascii.equals = none := by decide

theorem mem_alphabet (c : UInt8) : c ∈ alphabet ↔ base64DecodeTable c ≠ 0xff := by
  have all : ∀ n : Fin 256, UInt8.ofNat n ∈ alphabet ↔ base64DecodeTable (UInt8.ofNat n) ≠ 0xff := by decide +kernel
  have here := all ⟨c.toNat, c.toNat_lt⟩
  rwa [UInt8.ofNat_toNat] at here

/-- Other characters do not count. -/
theorem sextetsOf_filter (text : Bytes) : sextetsOf (text.filter (· ∈ alphabet)) = sextetsOf text := by
  unfold sextetsOf
  rw [List.filterMap_filter]
  apply List.filterMap_congr
  intro c _
  by_cases valid : base64DecodeTable c = 0xff
  · simp [mem_alphabet, valid, sextetOf]
  · simp [mem_alphabet, valid]

theorem sextetsOf_map {sextets : List Nat} (small : ∀ n ∈ sextets, n < 64) :
    sextetsOf (sextets.map base64EncodeTable) = sextets := by
  unfold sextetsOf
  rw [List.filterMap_map]
  have same : sextets.filterMap (sextetOf ∘ base64EncodeTable) = sextets.filterMap some := by
    apply List.filterMap_congr
    intro n member
    exact sextetOf_encodeTable (small n member)
  rw [same, List.filterMap_some]

end Tables

section Encoding

/-- The characters of a byte string, without the padding. -/
def chars (s : Bytes) : Bytes := (toSextets s).map base64EncodeTable

/-- The base64 form of a byte string. -/
def text (s : Bytes) : Bytes := chars s ++ List.replicate ((3 - s.length % 3) % 3) Ascii.equals

theorem length_text (s : Bytes) : (text s).length = base64EncodedSize s.length := by
  unfold text chars base64EncodedSize
  simp only [List.length_append, List.length_map, length_toSextets, List.length_replicate]
  omega

theorem chars_append {front : Bytes} (groups : front.length % 3 = 0) (s : Bytes) : chars (front ++ s) = chars front ++ chars s := by
  unfold chars
  rw [toSextets_append groups, List.map_append]

/-- A number of six bits of a triple. -/
theorem sextet_eq (x y z : UInt8) (k : Nat) : sextet ((x.toNat <<< 16) + (y.toNat <<< 8) + z.toNat) k =
    base64EncodeTable ((x.toNat * 65536 + y.toNat * 256 + z.toNat) / 64 ^ k % 64) := by
  have mask : 0x3F = 2 ^ 6 - 1 := rfl
  have power : 2 ^ (k * 6) = 64 ^ k := by
    rw [Nat.mul_comm, Nat.pow_mul]
  unfold sextet
  rw [mask, Nat.and_two_pow_sub_one_eq_mod, Nat.shiftRight_eq_div_pow, Nat.shiftLeft_eq, Nat.shiftLeft_eq, power]

/-- The four characters of a triple. -/
theorem sextets_eq (x y z : UInt8) :
    [sextet ((x.toNat <<< 16) + (y.toNat <<< 8) + z.toNat) 3, sextet ((x.toNat <<< 16) + (y.toNat <<< 8) + z.toNat) 2,
      sextet ((x.toNat <<< 16) + (y.toNat <<< 8) + z.toNat) 1, sextet ((x.toNat <<< 16) + (y.toNat <<< 8) + z.toNat) 0] =
    chars [x, y, z] := by
  have hx := x.toNat_lt
  have hy := y.toNat_lt
  have hz := z.toNat_lt
  have third : (x.toNat * 65536 + y.toNat * 256 + z.toNat) / 64 ^ 3 % 64 = x.toNat / 4 := by omega
  have second : (x.toNat * 65536 + y.toNat * 256 + z.toNat) / 64 ^ 2 % 64 = x.toNat % 4 * 16 + y.toNat / 16 := by omega
  have first : (x.toNat * 65536 + y.toNat * 256 + z.toNat) / 64 ^ 1 % 64 = y.toNat % 16 * 4 + z.toNat / 64 := by omega
  have last : (x.toNat * 65536 + y.toNat * 256 + z.toNat) / 64 ^ 0 % 64 = z.toNat % 64 := by omega
  simp only [sextet_eq, third, second, first, last, chars, toSextets, List.map_cons, List.map_nil]

/-- The last group has two bytes. -/
theorem text_two (x y : UInt8) : text [x, y] =
    [sextet ((x.toNat <<< 16) + (y.toNat <<< 8)) 3, sextet ((x.toNat <<< 16) + (y.toNat <<< 8)) 2,
      sextet ((x.toNat <<< 16) + (y.toNat <<< 8)) 1] ++ [Ascii.equals] := by
  have triple := sextets_eq x y 0
  simp only [UInt8.toNat_zero, Nat.add_zero, chars, toSextets, List.map_cons, List.map_nil, List.cons.injEq] at triple
  obtain ⟨third, second, first, -⟩ := triple
  simp [third, second, first, text, chars, toSextets]

/-- The last group has one byte. -/
theorem text_one (x : UInt8) : text [x] =
    [sextet ((x.toNat <<< 16) + ((0 : UInt8).toNat <<< 8)) 3, sextet ((x.toNat <<< 16) + ((0 : UInt8).toNat <<< 8)) 2] ++
      [Ascii.equals, Ascii.equals] := by
  have triple := sextets_eq x 0 0
  simp only [UInt8.toNat_zero, Nat.add_zero, chars, toSextets, List.map_cons, List.map_nil, List.cons.injEq] at triple
  obtain ⟨third, second, -⟩ := triple
  rw [UInt8.toNat_zero, third, second]
  simp [text, chars, toSextets]

variable {s : Bytes} {out : Nat}

/-- Four characters are stored from right to left, and then what is in front of them. -/
theorem storeGroup_fills {front : Bytes} {g : Nat} (length : front.length = 4 * g) {rest : Writer Stop Unit}
    (fills : Fills out front () rest) (c₃ c₂ c₁ c₀ : UInt8) :
    Fills out (front ++ [c₃, c₂, c₁, c₀]) () (do
      store (out + 4 * g + 3) c₀
      store (out + 4 * g + 2) c₁
      store (out + 4 * g + 1) c₂
      store (out + 4 * g) c₃
      rest) := by
  have one := fills.storeBehind (i := out + 4 * g) (by rw [length]) c₃
  have two := one.storeBehind (i := out + 4 * g + 1) (by simp [length]; omega) c₂
  have three := two.storeBehind (i := out + 4 * g + 2) (by simp [length]; omega) c₁
  have four := three.storeBehind (i := out + 4 * g + 3) (by simp [length]; omega) c₀
  simpa only [List.append_assoc, List.cons_append, List.nil_append] using four

/-- The loop over the full groups fills in their characters. -/
theorem encodeGroups_fills {g : Nat} (inside : 3 * g ≤ s.length) :
    Fills out (chars (s.take (3 * g))) () (encodeGroups (given s) out g) := by
  induction g with
  | zero => exact .pure ()
  | succ g ih =>
    have group : Rest s (3 * g) (memOf s (3 * g) :: memOf s (3 * g + 1) :: memOf s (3 * g + 2) :: s.drop (3 * g + 3)) := by
      unfold Rest memOf
      rw [Rest.head (i := 3 * g) (by omega) 0, Rest.head (i := 3 * g + 1) (by omega) 0, Rest.head (i := 3 * g + 2) (by omega) 0]
    have triple : s.take (3 * (g + 1)) = s.take (3 * g) ++ [memOf s (3 * g), memOf s (3 * g + 1), memOf s (3 * g + 2)] := by
      rw [Nat.mul_succ, List.take_add, group]
      simp
    have groups : (s.take (3 * g)).length % 3 = 0 := by
      rw [List.length_take_of_le (by omega)]
      omega
    have length : (chars (s.take (3 * g))).length = 4 * g := by
      unfold chars
      rw [List.length_map, length_toSextets, List.length_take_of_le (by omega)]
      omega
    rw [triple, chars_append groups, ← sextets_eq]
    exact storeGroup_fills length (ih (by omega)) _ _ _ _

/-- The last group is filled in behind the others. -/
theorem encodePart_fills {rest : Writer Stop Unit} (part : 0 < s.length % 3)
    (fills : Fills out (chars (s.take (3 * (s.length / 3)))) () rest) :
    Fills out (text s) () (encodePart (given s) out s.length >>= fun _ => rest) := by
  have groups : (s.take (3 * (s.length / 3))).length = 3 * (s.length / 3) := List.length_take_of_le (by omega)
  have length : (chars (s.take (3 * (s.length / 3)))).length = 4 * (s.length / 3) := by
    unfold chars
    rw [List.length_map, length_toSextets, groups]
    omega
  have whole : text s = chars (s.take (3 * (s.length / 3))) ++ text (s.drop (3 * (s.length / 3))) := by
    unfold text
    rw [← List.append_assoc, ← chars_append (by omega), List.take_append_drop, List.length_drop]
    congr 3
    omega
  have first := Rest.head (s := s) (i := 3 * (s.length / 3)) (by omega) 0
  rw [whole]
  unfold encodePart byteOrZero
  by_cases two : s.length % 3 > 1
  · have second := Rest.head (s := s) (i := 3 * (s.length / 3) + 1) (by omega) 0
    have none : s.drop (3 * (s.length / 3) + 1 + 1) = [] := List.drop_eq_nil_of_le (by omega)
    rw [first, second, none, text_two]
    simp only [two, decide_true, if_true]
    exact storeGroup_fills length fills _ _ _ _
  · have none : s.drop (3 * (s.length / 3) + 1) = [] := List.drop_eq_nil_of_le (by omega)
    rw [first, none, text_one]
    simp only [two, decide_false, Bool.false_eq_true, if_false]
    exact storeGroup_fills length fills _ _ _ _

/-- **Encoding** fills in the base64 form. -/
theorem rbpgBase64Encode_fills (s : Bytes) (out : Nat) : Fills out (text s) () (rbpgBase64Encode (given s) out s.length) := by
  have groups := @encodeGroups_fills s out (s.length / 3) (by omega)
  unfold rbpgBase64Encode
  by_cases part : s.length % 3 > 0
  · rw [if_pos part]
    exact encodePart_fills part groups
  · rw [if_neg part]
    have whole : s.take (3 * (s.length / 3)) = s := List.take_of_length_le (by omega)
    have padding : (3 - s.length % 3) % 3 = 0 := by omega
    rw [whole] at groups
    unfold text
    rwa [padding, List.replicate_zero, List.append_nil]

end Encoding

section Decoding

/-- The bytes that a text stands for. -/
def decoded (text : Bytes) : Bytes := ofSextets (sextetsOf text)

/-- The next number of six bits, `0xff` without one, and what is left behind it. -/
def takeSextet : Bytes → UInt8 × Bytes
  | [] => (0xff, [])
  | c :: t => if base64DecodeTable c = 0xff then takeSextet t else (base64DecodeTable c, t)

/-- The bytes of up to four numbers of six bits. -/
def joined (a b c d : UInt8) : Bytes := ofSextets (([a, b, c, d].takeWhile (· ≠ 0xff)).map UInt8.toNat)

theorem takeSextet_valid {t : Bytes} (valid : (takeSextet t).1 ≠ 0xff) :
    (takeSextet t).1.toNat < 64 ∧ (takeSextet t).2.length < t.length ∧
      sextetsOf t = (takeSextet t).1.toNat :: sextetsOf (takeSextet t).2 := by
  induction t with
  | nil => exact absurd rfl valid
  | cons c t ih =>
    unfold takeSextet at valid ⊢
    unfold sextetsOf
    by_cases skipped : base64DecodeTable c = 0xff
    · rw [if_pos skipped] at valid ⊢
      obtain ⟨small, shorter, rest⟩ := ih valid
      have none : sextetOf c = none := if_pos skipped
      rw [List.filterMap_cons_none none]
      exact ⟨small, Nat.lt_succ_of_lt shorter, rest⟩
    · rw [if_neg skipped]
      have some : sextetOf c = some (base64DecodeTable c).toNat := if_neg skipped
      rw [List.filterMap_cons_some some]
      exact ⟨decodeTable_lt skipped, Nat.lt_succ_self _, rfl⟩

theorem takeSextet_none {t : Bytes} (none : (takeSextet t).1 = 0xff) : (takeSextet t).2 = [] ∧ sextetsOf t = [] := by
  induction t with
  | nil => exact ⟨rfl, rfl⟩
  | cons c t ih =>
    unfold takeSextet at none ⊢
    unfold sextetsOf
    by_cases skipped : base64DecodeTable c = 0xff
    · rw [if_pos skipped] at none ⊢
      have garbage : sextetOf c = Option.none := if_pos skipped
      rw [List.filterMap_cons_none garbage]
      exact ih none
    · rw [if_neg skipped] at none
      exact absurd none skipped

theorem takeSextet_suffix (t : Bytes) : (takeSextet t).2 <:+ t.tail := by
  induction t with
  | nil => exact List.suffix_refl _
  | cons c t ih =>
    unfold takeSextet
    split
    · exact ih.trans (List.tail_suffix t)
    · exact List.suffix_refl t

theorem takeSextet_rest (t : Bytes) : (takeSextet t).2 <:+ t := (takeSextet_suffix t).trans (List.tail_suffix t)

/-- The four numbers that are taken next, and what is left behind them. -/
structure Round where
  a : UInt8
  b : UInt8
  c : UInt8
  d : UInt8
  left : Bytes

namespace Round

def of (t : Bytes) : Round :=
  let ra := takeSextet t
  let rb := takeSextet ra.2
  let rc := takeSextet rb.2
  let rd := takeSextet rc.2
  ⟨ra.1, rb.1, rc.1, rd.1, rd.2⟩

def bytes (r : Round) : Bytes := joined r.a r.b r.c r.d

end Round

/-- A round takes up to four numbers; with less than four the input is over. -/
theorem decoded_round (t : Bytes) : decoded t = (Round.of t).bytes ++ decoded (Round.of t).left := by
  have beyond : takeSextet [] = (0xff, []) := by simp [takeSextet]
  have nothing : sextetsOf [] = [] := by simp [sextetsOf]
  unfold decoded Round.bytes Round.of joined
  dsimp only
  by_cases a : (takeSextet t).1 = 0xff
  · obtain ⟨left, rest⟩ := takeSextet_none a
    simp [a, left, rest, beyond, nothing, ofSextets]
  obtain ⟨-, -, first⟩ := takeSextet_valid a
  rw [first]
  generalize takeSextet t = ra at a ⊢
  obtain ⟨a', t⟩ := ra
  by_cases b : (takeSextet t).1 = 0xff
  · obtain ⟨left, rest⟩ := takeSextet_none b
    simp [a, b, left, rest, beyond, nothing, ofSextets]
  obtain ⟨-, -, second⟩ := takeSextet_valid b
  rw [second]
  generalize takeSextet t = rb at b ⊢
  obtain ⟨b', t⟩ := rb
  by_cases c : (takeSextet t).1 = 0xff
  · obtain ⟨left, rest⟩ := takeSextet_none c
    simp [a, b, c, left, rest, beyond, nothing, ofSextets]
  obtain ⟨-, -, third⟩ := takeSextet_valid c
  rw [third]
  generalize takeSextet t = rc at c ⊢
  obtain ⟨c', t⟩ := rc
  by_cases d : (takeSextet t).1 = 0xff
  · obtain ⟨left, rest⟩ := takeSextet_none d
    simp [a, b, c, d, left, rest, nothing, ofSextets]
  obtain ⟨-, -, fourth⟩ := takeSextet_valid d
  rw [fourth]
  simp [a, b, c, d, ofSextets]

section Bits

variable {a b c d : UInt8}

/-- Bits that do not overlap are added. -/
theorem or_eq {hi lo : UInt8} {high low k : Nat} (here : hi.toNat = high * 2 ^ k) (there : lo.toNat = low) (apart : low < 2 ^ k) :
    hi ||| lo = (high * 2 ^ k + low).toUInt8 := by
  subst there
  have sum := Nat.shiftLeft_add_eq_or_of_lt apart high
  rw [Nat.shiftLeft_eq] at sum
  rw [sum, ← here, ← UInt8.toNat_or, Nat.toUInt8, UInt8.ofNat_toNat]

theorem join_first (ha : a.toNat < 64) (hb : b.toNat < 64) : (a <<< 2) ||| (b >>> 4) = (a.toNat * 4 + b.toNat / 16).toUInt8 := by
  apply or_eq (k := 2)
  · have shifted : (a <<< 2).toNat = a.toNat * 4 % 256 := by simp [UInt8.toNat_shiftLeft, Nat.shiftLeft_eq]
    omega
  · simp [UInt8.toNat_shiftRight, Nat.shiftRight_eq_div_pow]
  · omega

theorem join_second (hc : c.toNat < 64) : (b <<< 4) ||| (c >>> 2) = (b.toNat % 16 * 16 + c.toNat / 4).toUInt8 := by
  apply or_eq (k := 4)
  · have shifted : (b <<< 4).toNat = b.toNat * 16 % 256 := by simp [UInt8.toNat_shiftLeft, Nat.shiftLeft_eq]
    omega
  · simp [UInt8.toNat_shiftRight, Nat.shiftRight_eq_div_pow]
  · omega

theorem join_third (hd : d.toNat < 64) : (c <<< 6) ||| d = (c.toNat % 4 * 64 + d.toNat).toUInt8 := by
  apply or_eq (k := 6) _ rfl hd
  have shifted : (c <<< 6).toNat = c.toNat * 64 % 256 := by simp [UInt8.toNat_shiftLeft, Nat.shiftLeft_eq]
  omega

/-- A number of six bits, or none. -/
def Sextet (a : UInt8) : Prop := a = 0xff ∨ a.toNat < 64

/-- The bytes of up to four numbers are stored one behind the other. -/
theorem storeSextets_eq (out : Nat) (ha : Sextet a) (hb : Sextet b) (hc : Sextet c) (hd : Sextet d) :
    storeSextets out a b c d = storeAll out (joined a b c d) >>= fun _ => pure (out + (joined a b c d).length) := by
  unfold storeSextets joined
  by_cases a' : a = 0xff
  · simp [a', ofSextets, storeAll]
  by_cases b' : b = 0xff
  · simp [a', b', ofSextets, storeAll]
  by_cases c' : c = 0xff
  · simp [a', b', c', ofSextets, storeAll, join_first (ha.resolve_left a') (hb.resolve_left b')]
  by_cases d' : d = 0xff
  · simp [a', b', c', d', ofSextets, storeAll, join_first (ha.resolve_left a') (hb.resolve_left b'),
      join_second (hc.resolve_left c')]
  simp [a', b', c', d', ofSextets, storeAll, join_first (ha.resolve_left a') (hb.resolve_left b'),
    join_second (hc.resolve_left c'), join_third (hd.resolve_left d')]

end Bits

variable {s t : Bytes} {p : Nat}

/-- Where a text begins that is left at the end of another one. -/
theorem rest_of_suffix (here : Rest s p t) {u : Bytes} (suffix : u <:+ t) : Rest s (s.length - u.length) u := by
  have whole : u <:+ s := suffix.trans (here ▸ List.drop_suffix p s)
  exact (List.suffix_iff_eq_drop.1 whole).symm

theorem index_of_rest (here : Rest s p t) (inside : p ≤ s.length) : p = s.length - t.length := by
  have length := congrArg List.length here
  rw [List.length_drop] at length
  omega

/-- One of the nested scans. -/
theorem scanSextet_given {c : UInt8} {fuel : Nat} (here : Rest s p (c :: t)) (enough : s.length - p ≤ fuel) :
    scanSextet (given s) s.length fuel p =
      pure ((takeSextet (c :: t)).1, s.length - (takeSextet (c :: t)).2.length) := by
  induction fuel generalizing p c t with
  | zero =>
    have inside := here.lt
    omega
  | succ fuel ih =>
    have inside := here.lt
    have next := index_of_rest here.next inside
    have read : memOf s p = c := here.getD 0
    unfold scanSextet takeSextet
    rw [pure_bind, read]
    dsimp only
    by_cases skipped : base64DecodeTable c = 0xff
    · cases t with
      | nil =>
        rw [List.length_nil] at next
        rw [if_neg (by omega), if_pos skipped, skipped, next]
        simp [takeSextet]
      | cons d t =>
        have inside' := here.next.lt
        rw [if_pos ⟨skipped, inside'⟩, if_pos skipped]
        exact ih here.next (by omega)
    · rw [if_neg fun both => skipped both.1, if_neg skipped, next]

theorem nextSextet_given (here : Rest s p t) (inside : p ≤ s.length) :
    nextSextet (given s) s.length p = pure ((takeSextet t).1, s.length - (takeSextet t).2.length) := by
  unfold nextSextet
  cases t with
  | nil =>
    have atEnd := index_of_rest here inside
    rw [List.length_nil] at atEnd
    rw [if_neg (by omega), atEnd]
    simp [takeSextet]
  | cons c t =>
    rw [if_pos here.lt]
    exact scanSextet_given here le_rfl

theorem Round.left_suffix (t : Bytes) : (Round.of t).left <:+ t.tail := by
  apply (takeSextet_rest _).trans
  apply (takeSextet_rest _).trans
  apply (takeSextet_rest _).trans
  exact takeSextet_suffix t

theorem sextet_takeSextet (t : Bytes) : Sextet (takeSextet t).1 := by
  by_cases none : (takeSextet t).1 = 0xff
  · exact .inl none
  · exact .inr (takeSextet_valid none).1

theorem Round.store (out : Nat) (t : Bytes) :
    storeSextets out (Round.of t).a (Round.of t).b (Round.of t).c (Round.of t).d =
      storeAll out (Round.of t).bytes >>= fun _ => pure (out + (Round.of t).bytes.length) :=
  storeSextets_eq out (sextet_takeSextet _) (sextet_takeSextet _) (sextet_takeSextet _) (sextet_takeSextet _)

/-- The four nested scans. -/
theorem scans_given {β : Type} (here : Rest s p t) (inside : p ≤ s.length)
    (k : UInt8 → UInt8 → UInt8 → UInt8 → Nat → Writer Stop β) :
    (do
      let (a, inPtr) ← nextSextet (given s) s.length p
      let (b, inPtr) ← nextSextet (given s) s.length inPtr
      let (c, inPtr) ← nextSextet (given s) s.length inPtr
      let (d, inPtr) ← nextSextet (given s) s.length inPtr
      k a b c d inPtr) =
      k (Round.of t).a (Round.of t).b (Round.of t).c (Round.of t).d (s.length - (Round.of t).left.length) := by
  have first := rest_of_suffix here (takeSextet_rest t)
  have second := rest_of_suffix first (takeSextet_rest _)
  have third := rest_of_suffix second (takeSextet_rest _)
  simp only [nextSextet_given here inside, nextSextet_given first (Nat.sub_le _ _), nextSextet_given second (Nat.sub_le _ _),
    nextSextet_given third (Nat.sub_le _ _), pure_bind]
  rfl

/-- The look at four characters: where all of them are numbers, they are those of the round. -/
theorem fourSextets_given (here : Rest s p t) :
    fourSextets (given s) s.length p = pure none ∨
      fourSextets (given s) s.length p = pure (some ((Round.of t).a, (Round.of t).b, (Round.of t).c, (Round.of t).d)) ∧
        p + 4 = s.length - (Round.of t).left.length ∧ 4 ≤ t.length := by
  unfold fourSextets
  by_cases four : p + 3 < s.length
  · rw [if_pos four]
    have text : t = memOf s p :: memOf s (p + 1) :: memOf s (p + 2) :: memOf s (p + 3) :: s.drop (p + 4) := by
      rw [← here, Rest.head (i := p) (by omega) 0, Rest.head (i := p + 1) (by omega) 0, Rest.head (i := p + 2) (by omega) 0,
        Rest.head (i := p + 3) (by omega) 0]
      rfl
    simp only [pure_bind]
    by_cases valid : base64DecodeTable (memOf s p) ≠ 0xff ∧ base64DecodeTable (memOf s (p + 1)) ≠ 0xff ∧
        base64DecodeTable (memOf s (p + 2)) ≠ 0xff ∧ base64DecodeTable (memOf s (p + 3)) ≠ 0xff
    · rw [if_pos valid]
      obtain ⟨a, b, c, d⟩ := valid
      have round : Round.of t = ⟨base64DecodeTable (memOf s p), base64DecodeTable (memOf s (p + 1)),
          base64DecodeTable (memOf s (p + 2)), base64DecodeTable (memOf s (p + 3)), s.drop (p + 4)⟩ := by
        rw [text]
        simp only [Round.of, takeSextet, if_neg a, if_neg b, if_neg c, if_neg d]
      refine .inr ⟨?_, ?_, ?_⟩
      · rw [round]
      · rw [round, List.length_drop]
        omega
      · simp [text]
    · rw [if_neg valid]
      exact .inl rfl
  · rw [if_neg four]
    exact .inl rfl

/-- The loop of the decoder, at any point of the input. -/
theorem decodeLoop_given {fuel : Nat} (here : Rest s p t) (inside : p ≤ s.length) (enough : t.length < fuel) (outPtr : Nat) :
    decodeLoop (given s) s.length fuel p outPtr =
      storeAll outPtr (decoded t) >>= fun _ => pure (outPtr + (decoded t).length) := by
  induction fuel generalizing p t outPtr with
  | zero => omega
  | succ fuel ih =>
    have left := Round.left_suffix t
    have rest := rest_of_suffix here (left.trans (List.tail_suffix t))
    have later : t ≠ [] → decodeLoop (given s) s.length fuel (s.length - (Round.of t).left.length)
          (outPtr + (Round.of t).bytes.length) =
        storeAll (outPtr + (Round.of t).bytes.length) (decoded (Round.of t).left) >>= fun _ =>
          pure (outPtr + (Round.of t).bytes.length + (decoded (Round.of t).left).length) := by
      intro some
      apply ih rest (Nat.sub_le _ _)
      have shorter := left.length_le
      have positive := List.length_pos_of_ne_nil some
      rw [List.length_tail] at shorter
      omega
    have whole : (storeAll outPtr (decoded t) >>= fun _ => pure (outPtr + (decoded t).length) : Writer Stop Nat) =
        storeAll outPtr (Round.of t).bytes >>= fun _ => storeAll (outPtr + (Round.of t).bytes.length) (decoded (Round.of t).left) >>=
          fun _ => pure (outPtr + (Round.of t).bytes.length + (decoded (Round.of t).left).length) := by
      rw [decoded_round t, storeAll_append, bind_assoc, List.length_append, Nat.add_assoc]
    unfold decodeLoop
    rcases fourSextets_given here with none | ⟨four, next, some⟩
    · rw [none, pure_bind]
      dsimp only
      by_cases more : p < s.length
      · have some : t ≠ [] := by
          rintro rfl
          have length := index_of_rest here inside
          rw [List.length_nil] at length
          omega
        rw [if_pos more]
        refine (scans_given here inside fun a b c d inPtr => do
          let outPtr ← storeSextets outPtr a b c d
          decodeLoop (given s) s.length fuel inPtr outPtr).trans ?_
        rw [Round.store, bind_assoc, whole]
        simp only [pure_bind, later some]
      · have nothing : t = [] := by
          rw [← here, List.drop_eq_nil_of_le (by omega)]
        rw [if_neg more, nothing]
        simp [decoded, sextetsOf, ofSextets, storeAll]
    · have some' : t ≠ [] := by
        rintro rfl
        simp at some
      rw [four, pure_bind]
      dsimp only
      rw [Round.store, bind_assoc, next, whole]
      simp only [pure_bind, later some']

/-- **Decoding** stores the bytes that the text stands for, and returns how many they are. -/
theorem rbpgBase64Decode_given (s : Bytes) (out : Nat) :
    rbpgBase64Decode (given s) out s.length = storeAll out (decoded s) >>= fun _ => pure (decoded s).length := by
  unfold rbpgBase64Decode
  rw [decodeLoop_given (Rest.zero s) (Nat.zero_le _) (Nat.lt_succ_self _), bind_assoc]
  simp

end Decoding

section Strings

/-- **Encoding a String** gives its base64 form. -/
theorem base64String_eq (s : Bytes) : base64String s = .ok (text s) := by
  obtain ⟨w, run, slice, -⟩ := rbpgBase64Encode_fills s 0 ⟨memOf [], []⟩
  rw [length_text] at slice
  unfold base64String
  rw [run]
  dsimp only
  rw [slice]
  rfl

theorem rbpgBase64Decode_run (s : Bytes) (out : Nat) (w : Buf) :
    ∃ w', rbpgBase64Decode (given s) out s.length w = (.ok (decoded s).length, w') ∧
      w'.mem.slice out (decoded s).length = decoded s := by
  obtain ⟨w', run, slice, -⟩ := @storeAll_run Stop out (decoded s) w
  refine ⟨w', ?_, slice⟩
  rw [rbpgBase64Decode_given]
  exact Method.bind_ok run

/-- **Decoding a String** gives the bytes it stands for. -/
theorem unbase64String_eq (s : Bytes) : unbase64String s = .ok (decoded s) := by
  obtain ⟨w, run, slice⟩ := rbpgBase64Decode_run s 0 ⟨memOf [], []⟩
  unfold unbase64String
  rw [run]
  dsimp only
  rw [slice]
  rfl

theorem sextetsOf_append (front back : Bytes) : sextetsOf (front ++ back) = sextetsOf front ++ sextetsOf back :=
  List.filterMap_append

/-- The padding stands for nothing. -/
theorem sextetsOf_padding (n : Nat) : sextetsOf (List.replicate n Ascii.equals) = [] := by
  apply List.filterMap_eq_nil_iff.2
  intro c member
  rw [List.eq_of_mem_replicate member]
  exact sextetOf_equals

theorem decoded_text (s : Bytes) : decoded (text s) = s := by
  unfold decoded text chars
  rw [sextetsOf_append, sextetsOf_padding, List.append_nil, sextetsOf_map (toSextets_lt s)]
  exact ofSextets_toSextets s

theorem decoded_filter (s : Bytes) : decoded (s.filter (· ∈ alphabet)) = decoded s :=
  congrArg ofSextets (sextetsOf_filter s)

theorem length_decoded (s : Bytes) : (decoded s).length ≤ base64DecodedSize s.length := by
  have fewer : (sextetsOf s).length ≤ s.length := List.length_filterMap_le sextetOf s
  unfold decoded base64DecodedSize
  rw [length_ofSextets]
  omega

end Strings

end RubyPg.Base64
