import RubyPg.Query.ParamsPool
import RubyPg.TwoPass.Contract

/-!
# What the callers see of an encoder

The callers of an encoder get a size and then the bytes in `out[0..len-1]`, or a String
(`Enc.encoder`). For integers this is the encoder that the round trips are about, and every
encoder that keeps the two-pass contract keeps the one that the memory pool of a query relies on.
-/

namespace RubyPg.TwoPass
set_option autoImplicit false
open Ascii Writer

/-- The loop swaps the bytes around the middle. -/
theorem reverseInPlace_run {fuel start stop : Nat} (enough : stop ≤ start + fuel) (s : Buf) :
    ∃ s', reverseInPlace fuel start stop s = (.ok (), s') ∧
      ∀ j, s'.mem j = if start ≤ j ∧ j ≤ stop then s.mem (start + stop - j) else s.mem j := by
  induction fuel generalizing start stop s with
  | zero =>
    refine ⟨s, rfl, fun j => ?_⟩
    split
    · exact congrArg s.mem (by omega)
    · rfl
  | succ fuel ih =>
    unfold reverseInPlace
    by_cases more : start < stop
    · rw [if_pos more]
      obtain ⟨s', run, swapped⟩ := @ih (start + 1) (stop - 1) (by omega)
        ⟨(s.mem.put start (s.mem stop)).put stop (s.mem start), stop :: start :: s.log⟩
      dsimp only at swapped
      refine ⟨s', run, fun j => ?_⟩
      rw [swapped]
      by_cases inner : start + 1 ≤ j ∧ j ≤ stop - 1
      · rw [if_pos inner, if_pos (by omega), show start + 1 + (stop - 1) - j = start + stop - j by omega]
        rw [Mem.put_other _ _ (by omega), Mem.put_other _ _ (by omega)]
      · rw [if_neg inner]
        by_cases last : j = stop
        · rw [if_pos (by omega), last, Mem.put_same, Nat.add_sub_cancel]
        · rw [Mem.put_other _ _ last]
          by_cases first : j = start
          · rw [if_pos (by omega), first, Mem.put_same, Nat.add_sub_cancel_left]
          · rw [if_neg (by omega), Mem.put_other _ _ first]
    · rw [if_neg more]
      refine ⟨s, rfl, fun j => ?_⟩
      split
      · exact congrArg s.mem (by omega)
      · rfl

/-- The second call leaves the text of the integer, and changes nothing else. -/
theorem writeIntegerAt_fills (sll : Int) (out : Nat) :
    Fills out (Text.writeInteger sll) (integerLength sll) (writeIntegerAt sll out : Writer Stop Nat) := by
  intro s
  have length := length_writtenDigits sll
  have positive := integerLength_pos sll
  have whole : (Text.writeInteger sll).length = integerLength sll := by rw [Text.writeInteger, List.length_reverse, length]
  obtain ⟨s₁, stored, digits, front⟩ := @storeAll_run Stop out (digitsBack sll.natAbs ++ if sll < 0 then [minus] else []) s
  obtain ⟨s₂, reversed, swapped⟩ := @reverseInPlace_run (integerLength sll) out (out + integerLength sll - 1) (by omega) s₁
  rw [length] at digits
  refine ⟨s₂, ?_, ?_, fun j outside => ?_⟩
  · unfold writeIntegerAt
    simp only [length]
    rw [Method.bind_ok stored, Method.bind_ok reversed]
    rfl
  · rw [whole, Text.writeInteger, ← digits]
    refine Mem.slice_reverse fun k inside => ?_
    rw [swapped, if_pos (by omega)]
    exact congrArg s₁.mem (by omega)
  · rw [whole] at outside
    rw [swapped, if_neg (by omega)]
    rcases outside with before | after
    · exact front j before
    · have behind := @storeAll_behind Stop out (digitsBack sll.natAbs ++ if sll < 0 then [minus] else []) s j
        (by rw [length]; exact after)
      rwa [stored] at behind

theorem writeIntegerAt_puts (sll : Int) (out : Nat) :
    Puts out (Text.writeInteger sll) (integerLength sll) (writeIntegerAt sll out : Writer Stop Nat) :=
  (writeIntegerAt_fills sll out).puts

/-- The bytes that a second call leaves in fresh memory. -/
def written (second : Nat → Writer Stop Nat) : Outcome Bytes :=
  match second 0 ⟨fun _ => 0, []⟩ with
  | (.ok len, s) => .ok (s.mem.slice 0 len)
  | (.error stop, _) => .error stop

/-- An answer, as the callers see it. -/
def Answer.firstPass : Answer → FirstPass
  | .size n second => .size n (written second)
  | .string s => .string s

/-- The encoder, as the callers see it. -/
def Enc.encoder (api : CApi) (e : Enc) : Encoder := fun value => (e.func api value).map Answer.firstPass

theorem written_of_puts {second : Nat → Writer Stop Nat} {bytes : Bytes} {len : Nat} (puts : Puts 0 bytes len (second 0))
    (length : bytes.length = len) : written second = .ok bytes := by
  obtain ⟨s', returned, slice, -⟩ := puts ⟨fun _ => 0, []⟩
  rw [written, returned, ← length]
  exact congrArg Except.ok slice

theorem block_puts (bytes : Bytes) (out : Nat) : Puts out bytes bytes.length (block bytes out : Writer Stop Nat) := by
  have stored : Puts out bytes () (storeAll out bytes : Writer Stop Unit) := .storeAll out bytes
  have both : Puts out (bytes ++ []) bytes.length (block bytes out : Writer Stop Nat) := stored.bind (.pure bytes.length)
  rwa [List.append_nil] at both

/-- The bytes of an integer, if it is one. -/
theorem written_nboSecond (k : Nat) (l : Outcome Int) : written (nboSecond k l) = l.map (writeNbo k) := by
  cases l with
  | error stop => rfl
  | ok i => exact written_of_puts (block_puts (writeNbo k i) 0) rfl

/-- The caller of a two-pass answer gets what the second call writes. -/
theorem encode_of_size {api : CApi} {e : Enc} {value : Value} {n : Nat} {second : Nat → Writer Stop Nat}
    (first : e.func api value = .ok (.size n second)) : (e.encoder api).encode value = written second := by
  unfold Encoder.encode Enc.encoder
  rw [first]
  rfl

/-- The integer encoder of this level is the one that the round trips are about. -/
theorem textInteger_encoder (api : CApi) : Enc.textInteger.encoder api = Text.pgTextEncInteger api.toRuntime := by
  funext value
  unfold Enc.encoder Enc.func pgTextEncInteger Text.pgTextEncInteger
  cases conv : Text.pgObjToI api.toRuntime value with
  | error e => rfl
  | ok intermediate =>
    cases intermediate with
    | int sll =>
      simp only [bind, Except.bind]
      by_cases fixnum : isFixnum sll = true
      · rw [if_pos fixnum, if_pos fixnum]
        have length : (Text.writeInteger sll).length = integerLength sll := by
          rw [Text.writeInteger_eq]
          rfl
        simp only [Except.map, pure, Except.pure, Answer.firstPass, written_of_puts (writeIntegerAt_puts sll 0) length]
      · rw [if_neg fixnum, if_neg fixnum]
        rfl
    | _ => rfl

/-- A second call that keeps to the size leaves no more bytes than that. -/
theorem Answer.Contract.length_le {n : Nat} {second : Nat → Writer Stop Nat} {bytes : Bytes}
    (contract : (Answer.size n second).Contract) (left : written second = .ok bytes) : bytes.length ≤ n := by
  unfold written at left
  split at left
  · rename_i len s run
    cases left
    rw [Mem.slice_length]
    exact (contract 0 fun _ => 0).2 len (by rw [run])
  · cases left

/-- **What the memory pool of the queries assumes** of its coders holds of every safe encoder whose
sizes stay below `INT_MAX`. -/
theorem Enc.Safe.queryCoder_contract {api : CApi} {e : Enc} (safe : e.Safe) {coder : Query.QueryCoder}
    (encodes : ∀ param, ∃ value, coder.encFunc param = e.encoder api value)
    (small : ∀ value n second, e.func api value = .ok (.size n second) → n < Query.intMax) : coder.Contract := by
  have answered : ∀ param n second, coder.encFunc param = .ok (.size n second) →
      ∃ value call, e.func api value = .ok (.size n call) ∧ second = written call := by
    intro param n second first
    obtain ⟨value, same⟩ := encodes param
    rw [same] at first
    unfold Enc.encoder at first
    cases answer : e.func api value with
    | error stop =>
      rw [answer] at first
      cases first
    | ok given =>
      rw [answer] at first
      cases given with
      | string s => cases first
      | size n call =>
        cases first
        exact ⟨value, call, answer, rfl⟩
  constructor
  · intro param n second first
    obtain ⟨value, call, answer, -⟩ := answered param n second first
    exact small value n call answer
  · intro param n bytes first
    obtain ⟨value, call, answer, left⟩ := answered param n _ first
    exact (Enc.meets safe answer).keeps.contract.length_le left.symm

end RubyPg.TwoPass
