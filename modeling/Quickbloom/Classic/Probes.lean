import Quickbloom.Data.Stride
import Quickbloom.Filter.Hash
import Quickbloom.Source.Classic

namespace Quickbloom.Classic

open Quickbloom.Data Quickbloom.Machine
open Quickbloom.Source (Uint64)
open Quickbloom.Source.Classic
open Quickbloom.Filter (keyWord keyWords fasthashAbsorb fasthashFinish load64_keyWord
  fasthash64Var_eq fasthashTail_unique)

/-! # Hash pairs and the positions they probe

A pair is determined by its first word, whichever way it was derived. The
second word is odd, so the positions of a pair are distinct.
-/

theorem secondHash_odd (h1 : Uint64) : (secondHash h1).toNat % 2 = 1 := by
  rw [secondHash, BitVec.toNat_or, Nat.or_mod_two_eq_one]
  exact .inr rfl

/-- The first word of the pair of a key. -/
def firstHash (key : List Byte) : Uint64 :=
  if key.length = 16 then mulFold (keyWord key 0) (keyWord key 1)
  else fasthashFinish
    ((keyWords key).foldl fasthashAbsorb (BitVec.ofNat 64 key.length * Source.fasthashM))

section Holds

variable {pointer : Pointer Byte} {key : List Byte}

theorem classic_fasthash64Var_eq : Source.Classic.fasthash64Var = Source.fasthash64Var := by
  have tail : Source.Classic.fasthashTail = Source.fasthashTail :=
    fasthashTail_unique (fun _ _ => rfl) (fun _ _ _ => rfl)
  funext data len
  rw [Source.Classic.fasthash64Var, tail]
  rfl

theorem hash16Pair_eq (holds : pointer.Holds key) (long : 16 ≤ key.length) :
    hash16Pair pointer = .ok (prehashSplit (mulFold (keyWord key 0) (keyWord key 1))) := by
  have low : load64 pointer = .ok (keyWord key 0) :=
    load64_keyWord holds (by omega : 0 * 8 + 8 ≤ key.length)
  have high : load64 (pointer.add 8) = .ok (keyWord key 1) :=
    load64_keyWord holds (by omega : 1 * 8 + 8 ≤ key.length)
  rw [hash16Pair, low, high]
  rfl

theorem bloomHashPair_eq (holds : pointer.Holds key) :
    bloomHashPair pointer key.length = .ok (prehashSplit (firstHash key)) := by
  by_cases fast : key.length = 16
  · rw [bloomHashPair, firstHash, if_pos fast, if_pos fast]
    exact hash16Pair_eq holds (by omega)
  · rw [bloomHashPair, firstHash, if_neg fast, if_neg fast, classic_fasthash64Var_eq,
      fasthash64Var_eq holds]
    rfl

end Holds

/-- The place of the array that a position selects. -/
def place (b : BloomT) (pos : Uint64) : Nat := (pos &&& b.bitMask).toNat

def position (b : BloomT) (h1 h2 : Uint64) (i : Nat) : Nat := place b (h1 + BitVec.ofNat 64 i * h2)

/-- The places of a hash in a filter of `2 ^ k` bits. -/
def probe (k : Nat) (h : Uint64) : Set Nat :=
  visited (2 ^ k) h.toNat (secondHash h).toNat kHashes

structure Sized (k : Nat) (b : BloomT) : Prop where
  large : 6 ≤ k
  mask : b.bitMask.toNat + 1 = 2 ^ k

theorem kHashes_le {k : Nat} (large : 6 ≤ k) : kHashes ≤ 2 ^ k :=
  Nat.le_trans (by decide : 8 ≤ 2 ^ 6) (Nat.pow_le_pow_right (by omega) large)

theorem ncard_probe {k : Nat} (large : 6 ≤ k) (h : Uint64) : (probe k h).ncard = kHashes :=
  ncard_visited (odd_coprime (secondHash_odd h)) (kHashes_le large)

section Sized

variable {k : Nat} {b : BloomT} {h1 h2 : Uint64}

theorem Sized.place_lt (sized : Sized k b) (pos : Uint64) : place b pos < 2 ^ k := by
  rw [place, and_mask_toNat sized.mask]
  exact Nat.mod_lt _ (Nat.two_pow_pos k)

theorem Sized.position_eq (sized : Sized k b) (h1 h2 : Uint64) (i : Nat) :
    position b h1 h2 i = walk (2 ^ k) h1.toNat h2.toNat i :=
  walk_word sized.mask h1 h2 i

theorem Sized.position_injective (sized : Sized k b) (odd : h2.toNat % 2 = 1) {i j : Nat}
    (first : i < kHashes) (second : j < kHashes)
    (same : position b h1 h2 i = position b h1 h2 j) : i = j := by
  have room := kHashes_le sized.large
  rw [sized.position_eq, sized.position_eq] at same
  exact walk_injective (odd_coprime odd) (by omega) (by omega) same

theorem Sized.probe_eq (sized : Sized k b) (h : Uint64) :
    probe k h = {t | ∃ i < kHashes, t = position b h (secondHash h) i} := by
  simp only [probe, visited, sized.position_eq]

theorem Sized.probe_subset_iff (sized : Sized k b) (h : Uint64) {places : Set Nat} :
    probe k h ⊆ places ↔ ∀ i < kHashes, position b h (secondHash h) i ∈ places := by
  simp only [probe, visited_subset_iff, sized.position_eq]

end Sized

end Quickbloom.Classic
