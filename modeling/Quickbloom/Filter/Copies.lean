import Quickbloom.Classic.Probes
import Quickbloom.Filter.Halves
import Quickbloom.Source.Krassovsky
import Quickbloom.Source.Xorfuse

namespace Quickbloom.Filter

open Quickbloom.Data Quickbloom.Machine Quickbloom.Source

/-! # The copies of the key hash in the comparisons

Both copies are of the hash before its halves were mixed: they differ from
`bloom_hash` on the 16-byte path and nowhere else.
-/

/-- All three functions return one hash for the key. -/
def CopiesAgree (key : List Byte) : Prop :=
  ∃ h, bloomHash (Pointer.start key) key.length = .ok h ∧
    Xorfuse.bloomHash (Pointer.start key) key.length = .ok h ∧
    Krassovsky.bloomHash (Pointer.start key) key.length = .ok h

theorem xorfuse_fasthash64Var_eq : Xorfuse.fasthash64Var = fasthash64Var := by
  have tail : Xorfuse.fasthashTail = fasthashTail :=
    fasthashTail_unique (fun _ _ => rfl) (fun _ _ _ => rfl)
  funext data len
  rw [Xorfuse.fasthash64Var, tail]
  rfl

theorem krassovsky_fasthash64Var_eq : Krassovsky.fasthash64Var = fasthash64Var := by
  have tail : Krassovsky.fasthashTail = fasthashTail :=
    fasthashTail_unique (fun _ _ => rfl) (fun _ _ _ => rfl)
  funext data len
  rw [Krassovsky.fasthash64Var, tail]
  rfl

theorem krassovsky_hash16_eq : Krassovsky.hash16 = Xorfuse.hash16 := rfl

/-- The copies of the comparisons hash a key to the first word of its pair. -/
theorem xorfuse_bloomHash_eq {data : Pointer Byte} {bytes : List Byte} (holds : data.Holds bytes) :
    Xorfuse.bloomHash data bytes.length = .ok (Classic.firstHash bytes) := by
  by_cases fast : bytes.length = 16
  · have low : load64 data = .ok (keyWord bytes 0) :=
      load64_keyWord holds (by omega : 0 * 8 + 8 ≤ bytes.length)
    have high : load64 (data.add 8) = .ok (keyWord bytes 1) :=
      load64_keyWord holds (by omega : 1 * 8 + 8 ≤ bytes.length)
    rw [Xorfuse.bloomHash, Classic.firstHash, if_pos fast, if_pos fast, Xorfuse.hash16, low, high]
    rfl
  · rw [Xorfuse.bloomHash, Classic.firstHash, if_neg fast, if_neg fast, xorfuse_fasthash64Var_eq]
    exact fasthash64Var_eq holds

theorem krassovsky_bloomHash_eq {data : Pointer Byte} {bytes : List Byte}
    (holds : data.Holds bytes) :
    Krassovsky.bloomHash data bytes.length = .ok (Classic.firstHash bytes) := by
  rw [← xorfuse_bloomHash_eq holds, Krassovsky.bloomHash, Xorfuse.bloomHash, krassovsky_hash16_eq,
    krassovsky_fasthash64Var_eq, xorfuse_fasthash64Var_eq]

theorem copiesAgree_of_length {key : List Byte} (apart : key.length ≠ 16) : CopiesAgree key := by
  obtain ⟨h, returned⟩ := fasthash64Var_returns (Pointer.start_holds key)
  refine ⟨h, ?_, ?_, ?_⟩
  · rw [bloomHash, if_neg apart, returned]
  · rw [Xorfuse.bloomHash, if_neg apart, xorfuse_fasthash64Var_eq, returned]
  · rw [Krassovsky.bloomHash, if_neg apart, krassovsky_fasthash64Var_eq, returned]

theorem xorfuse_hash16_halves (x y : Uint64) :
    Xorfuse.hash16 (Pointer.start (halves x y)) = .ok (mulFold x y) := by
  have holds := Pointer.start_holds (halves x y)
  have length := halves_length x y
  have low : load64 (Pointer.start (halves x y)) = .ok (keyWord (halves x y) 0) :=
    load64_keyWord holds (by omega : 0 * 8 + 8 ≤ (halves x y).length)
  have high : load64 ((Pointer.start (halves x y)).add 8) = .ok (keyWord (halves x y) 1) :=
    load64_keyWord holds (by omega : 1 * 8 + 8 ≤ (halves x y).length)
  rw [Xorfuse.hash16, low, high, keyWord_halves_zero, keyWord_halves_one]
  rfl

/-- On a 16-byte key the three agree if the mixed and the plain product happen
to fold to one word. -/
theorem copiesAgree_halves (x y : Uint64) :
    CopiesAgree (halves x y) ↔ mulFold (x ^^^ mixFirst) (y ^^^ mixSecond) = mulFold x y := by
  have fast := halves_length x y
  rw [CopiesAgree, bloomHash, Xorfuse.bloomHash, Krassovsky.bloomHash, if_pos fast, if_pos fast,
    if_pos fast, krassovsky_hash16_eq, hash16_halves, xorfuse_hash16_halves]
  refine ⟨?_, ?_⟩
  · intro agree
    obtain ⟨h, mixed, plain, _⟩ := agree
    rw [Except.ok.inj mixed, Except.ok.inj plain]
  · intro same
    exact ⟨_, rfl, congrArg Except.ok same.symm, congrArg Except.ok same.symm⟩

theorem copiesAgree_key_iff (key : List Byte) :
    CopiesAgree key ↔ key.length ≠ 16 ∨
      mulFold (keyWord key 0 ^^^ mixFirst) (keyWord key 1 ^^^ mixSecond) =
        mulFold (keyWord key 0) (keyWord key 1) := by
  by_cases fast : key.length = 16
  · have whole := copiesAgree_halves (keyWord key 0) (keyWord key 1)
    rw [halves_keyWord fast] at whole
    simp only [whole, fast, ne_eq, not_true_eq_false, false_or]
  · simp only [copiesAgree_of_length fast, fast, ne_eq, not_false_eq_true, true_or]

theorem mulFold_zero_left (y : Uint64) : mulFold 0 y = 0 := by
  rw [mulFold_comm, mulFold_zero]

theorem copiesAgree_zeroHalf {x y : Uint64} (zero : x = 0 ∨ y = 0) :
    CopiesAgree (halves x y) ↔ x = 0 ∧ y = mixSecond ∨ x = mixFirst ∧ y = 0 := by
  rw [copiesAgree_halves]
  rcases zero with first | second
  · subst first
    have apart : (0 : Uint64) ≠ mixFirst := by decide
    rw [mulFold_zero_left, mulFold_zeroFirst]
    simp only [apart, false_and, or_false, true_and]
  · subst second
    have apart : (0 : Uint64) ≠ mixSecond := by decide
    rw [mulFold_zero, mulFold_zeroSecond]
    simp only [apart, and_false, false_or, and_true]

/-- The three hashes agree on all keys of a length exactly if that is not 16.
On a key of 16 bytes they agree if its mixed and its plain product fold to one
word, which of the keys with a zero half two do. -/
theorem copiesAgree_iff (len : Nat) :
    ((∀ key : List Byte, key.length = len → CopiesAgree key) ↔ len ≠ 16) ∧
    (∀ key : List Byte, key.length = len → (CopiesAgree key ↔ len ≠ 16 ∨
      mulFold (keyWord key 0 ^^^ 0x736f6d6570736575) (keyWord key 1 ^^^ 0x646f72616e646f6d) =
        mulFold (keyWord key 0) (keyWord key 1))) ∧
    (∀ x y : Uint64, x = 0 ∨ y = 0 → (CopiesAgree (halves x y) ↔
      x = 0 ∧ y = 0x646f72616e646f6d ∨ x = 0x736f6d6570736575 ∧ y = 0)) := by
  refine ⟨⟨?_, ?_⟩, ?_, fun x y zero => copiesAgree_zeroHalf zero⟩
  · intro agree fast
    have zero := agree (halves 0 0) ((halves_length 0 0).trans fast.symm)
    rw [copiesAgree_zeroHalf (.inl rfl)] at zero
    revert zero
    decide
  · intro apart key length
    exact copiesAgree_of_length (length ▸ apart)
  · intro key length
    subst length
    exact copiesAgree_key_iff key

theorem copiesAgree_iff_lengths :
    (∀ key : List Byte, key.length = 3 → CopiesAgree key) ∧ ¬ CopiesAgree (halves 0 1) := by
  refine ⟨(copiesAgree_iff 3).1.mpr (by omega), ?_⟩
  rw [(copiesAgree_iff 16).2.2 0 1 (.inl rfl)]
  decide

theorem copies_disagree : ¬ CopiesAgree (List.replicate 16 0) := by
  have zero : List.replicate 16 0 = halves 0 0 := by decide
  rw [zero, copiesAgree_halves]
  decide +kernel

end Quickbloom.Filter
