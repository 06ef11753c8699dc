import Mathlib.Algebra.Group.Nat.Defs
import Mathlib.Data.List.Nodup
import Mathlib.Logic.Function.Basic
import RedBlack.Seed

namespace RedBlack.Seed

/-- Folds a word down over itself: every bit is also laid over the one that lies
    `k` places below. Folding over a distance twice is folding over the double
    distance. -/
def fold (k : Nat) (z : UInt64) : UInt64 :=
  .ofBitVec (z.toBitVec ^^^ z.toBitVec >>> k)

theorem fold_fold (k : Nat) (z : UInt64) : fold k (fold k z) = fold (k + k) z := by
  simp only [fold, BitVec.ushiftRight_xor_distrib, BitVec.shiftRight_add]
  rw [BitVec.xor_assoc, ← BitVec.xor_assoc (z.toBitVec >>> k), BitVec.xor_self, BitVec.zero_xor]

theorem fold_of_le {k : Nat} (h : 64 ≤ k) (z : UInt64) : fold k z = z := by
  rw [fold, BitVec.ushiftRight_eq_zero h, BitVec.xor_zero, UInt64.ofBitVec_toBitVec]

/-- Over a distance of 16 places or more a fold is taken back by three more of
    them, as no bit of a word is moved over 64 places. -/
theorem fold_bijective {k : Nat} (h : 16 ≤ k) : Function.Bijective (fold k) := by
  have hfour (z : UInt64) : fold k (fold k (fold k (fold k z))) = z := by
    rw [fold_fold, fold_fold, fold_fold, fold_of_le (by omega)]
  exact Function.bijective_iff_has_inverse.mpr ⟨fold k ∘ fold k ∘ fold k, hfour, hfour⟩

/-- A multiplication is taken back by multiplying with the inverse of the
    factor, which an odd factor has modulo 2^64. -/
theorem scale_bijective {factor : UInt64} (inverse : UInt64) (h : factor * inverse = 1) :
    Function.Bijective (fun z => z * factor) := by
  have h' : inverse * factor = 1 := (UInt64.mul_comm inverse factor).trans h
  refine Function.bijective_iff_has_inverse.mpr ⟨fun z => z * inverse, fun z => ?_, fun z => ?_⟩
  · change z * factor * inverse = z
    rw [UInt64.mul_assoc, h, UInt64.mul_one]
  · change z * inverse * factor = z
    rw [UInt64.mul_assoc, h', UInt64.mul_one]

theorem spread_bijective : Function.Bijective (fun round => round * spread) :=
  scale_bijective 0xF1DE83E19937733D (by decide)

theorem mix_bijective : Function.Bijective mix := by
  have hfirst : Function.Bijective (fun z : UInt64 => z * 0xBF58476D1CE4E5B9) :=
    scale_bijective 0x96DE1B173F119089 (by decide)
  have hsecond : Function.Bijective (fun z : UInt64 => z * 0x94D049BB133111EB) :=
    scale_bijective 0x319642B2D24D8EC3 (by decide)
  have hmix : mix = fold 31 ∘ (· * 0x94D049BB133111EB) ∘ fold 27 ∘ (· * 0xBF58476D1CE4E5B9) ∘ fold 30 := rfl
  rw [hmix]
  exact (fold_bijective (by decide)).comp
    (hsecond.comp ((fold_bijective (by decide)).comp (hfirst.comp (fold_bijective (by decide)))))

theorem mix_inj {y z : UInt64} : mix y = mix z ↔ y = z :=
  mix_bijective.injective.eq_iff

/-- Words overlaid with the same word differ where they differed before. -/
theorem overlay_inj (word : UInt64) {y z : UInt64} : word ^^^ y = word ^^^ z ↔ y = z := by
  rw [← UInt64.toBitVec_inj, UInt64.toBitVec_xor, UInt64.toBitVec_xor, BitVec.xor_right_inj, UInt64.toBitVec_inj]

theorem length_scatteredKeys (size : Nat) (seed : UInt64) : (scatteredKeys size seed).length = size := by
  rw [scatteredKeys, List.length_map, List.length_range]

/-- Scattered keys are the same where their numbers are the same word. -/
theorem scatteredKey_inj (seed : UInt64) {i j : Nat} :
    mix (seed ^^^ i.toUInt64) = mix (seed ^^^ j.toUInt64) ↔ i % UInt64.size = j % UInt64.size := by
  rw [mix_inj, overlay_inj, ← UInt64.toNat_inj]
  rfl

/-- Mixing reaches every word from exactly one word, so scattered keys are
    distinct under every seed, for as long as there are words left: a machine
    word always counts few enough of them. -/
theorem scatteredKeys_distinct :
    (∀ y, ∃! z, mix z = y) ∧
    ∀ (seed : UInt64) (size : Nat), (scatteredKeys size seed).length = size ∧
      ((scatteredKeys size seed).Nodup ↔ size ≤ UInt64.size) := by
  refine ⟨mix_bijective.existsUnique, fun seed size => ⟨length_scatteredKeys size seed, ?_⟩⟩
  constructor
  · intro hnodup
    by_contra hlarge
    have hfirst : 0 ∈ List.range size := List.mem_range.mpr (by omega)
    have hpast : UInt64.size ∈ List.range size := List.mem_range.mpr (by omega)
    have hsame : mix (seed ^^^ Nat.toUInt64 0) = mix (seed ^^^ UInt64.size.toUInt64) := (scatteredKey_inj seed).mpr rfl
    cases List.inj_on_of_nodup_map hnodup hfirst hpast hsame
  · intro hsize
    refine List.Nodup.map_on (fun i hi j hj hsame => ?_) List.nodup_range
    have hi := Nat.lt_of_lt_of_le (List.mem_range.mp hi) hsize
    have hj := Nat.lt_of_lt_of_le (List.mem_range.mp hj) hsize
    have hmod := (scatteredKey_inj seed).mp hsame
    rwa [Nat.mod_eq_of_lt hi, Nat.mod_eq_of_lt hj] at hmod

/-- The number of a workload stands above the number of a size below 2^48. -/
theorem stacked_div {workload size : Nat} (hsize : size < 2 ^ 48) :
    (workload * 2 ^ 48 ^^^ size) / 2 ^ 48 = workload := by
  rw [Nat.xor_div_two_pow, Nat.mul_div_cancel _ (by decide), Nat.div_eq_of_lt hsize, Nat.xor_zero]

theorem stacked_mod {workload size : Nat} (hsize : size < 2 ^ 48) : (workload * 2 ^ 48 ^^^ size) % 2 ^ 48 = size := by
  rw [Nat.xor_mod_two_pow, Nat.mul_mod_left, Nat.mod_eq_of_lt hsize, Nat.zero_xor]

theorem ofWorkload_inj {workload size workload' size' : UInt64} :
    ofWorkload workload size = ofWorkload workload' size' ↔
      workload.toNat * 2 ^ 48 % 2 ^ 64 ^^^ size.toNat = workload'.toNat * 2 ^ 48 % 2 ^ 64 ^^^ size'.toNat := by
  have hstack (w s : UInt64) : (w <<< 48 ^^^ s).toNat = w.toNat * 2 ^ 48 % 2 ^ 64 ^^^ s.toNat := by
    rw [UInt64.toNat_xor, UInt64.toNat_shiftLeft, ← Nat.shiftLeft_eq]
    rfl
  rw [ofWorkload, ofWorkload, mix_inj, UInt64.xor_assoc, UInt64.xor_assoc, overlay_inj, ← UInt64.toNat_inj, hstack,
    hstack]

theorem ofRound_inj_round (base : UInt64) {i j : UInt64} : ofRound base i = ofRound base j ↔ i = j := by
  rw [ofRound, ofRound, mix_inj, overlay_inj]
  exact spread_bijective.injective.eq_iff

theorem ofRound_inj_base {a b : UInt64} (round : UInt64) : ofRound a round = ofRound b round ↔ a = b := by
  rw [ofRound, ofRound, mix_inj, UInt64.xor_comm a, UInt64.xor_comm b, overlay_inj]

/-- Where workloads are numbered below 2^16 and sizes below 2^48, each pair of
    them has a seed of its own. -/
theorem ofWorkload_inj_of_lt {workload size workload' size' : UInt64} (hworkload : workload.toNat < 2 ^ 16)
    (hsize : size.toNat < 2 ^ 48) (hworkload' : workload'.toNat < 2 ^ 16) (hsize' : size'.toNat < 2 ^ 48) :
    ofWorkload workload size = ofWorkload workload' size' ↔ workload = workload' ∧ size = size' := by
  constructor
  · intro hseed
    have hstacked := ofWorkload_inj.mp hseed
    rw [Nat.mod_eq_of_lt (by omega), Nat.mod_eq_of_lt (by omega)] at hstacked
    have hdiv := congrArg (· / 2 ^ 48) hstacked
    have hmod := congrArg (· % 2 ^ 48) hstacked
    simp only [stacked_div hsize, stacked_div hsize', stacked_mod hsize, stacked_mod hsize'] at hdiv hmod
    exact ⟨UInt64.toNat_inj.mp hdiv, UInt64.toNat_inj.mp hmod⟩
  · rintro ⟨rfl, rfl⟩
    rfl

/-- The rounds of a workload have distinct seeds, and so have the workloads in
    one round. Two workloads at their sizes have the same seed only if their
    numbers and sizes, laid over each other, are the same word; that never
    happens to distinct pairs of a number below 2^16 and a size below 2^48. -/
theorem seeds_collide_only_if_stacked_alike :
    (∀ base i j, ofRound base i = ofRound base j ↔ i = j) ∧
    (∀ a b round, ofRound a round = ofRound b round ↔ a = b) ∧
    (∀ workload size workload' size', ofWorkload workload size = ofWorkload workload' size' ↔
      workload.toNat * 2 ^ 48 % 2 ^ 64 ^^^ size.toNat = workload'.toNat * 2 ^ 48 % 2 ^ 64 ^^^ size'.toNat) ∧
    ∀ workload size workload' size', workload.toNat < 2 ^ 16 → size.toNat < 2 ^ 48 → workload'.toNat < 2 ^ 16 →
      size'.toNat < 2 ^ 48 → (workload, size) ≠ (workload', size') →
      ofWorkload workload size ≠ ofWorkload workload' size' := by
  refine ⟨fun base _ _ => ofRound_inj_round base, fun _ _ round => ofRound_inj_base round,
    fun _ _ _ _ => ofWorkload_inj, ?_⟩
  intro workload size workload' size' hworkload hsize hworkload' hsize' hpairs hseed
  obtain ⟨rfl, rfl⟩ := (ofWorkload_inj_of_lt hworkload hsize hworkload' hsize').mp hseed
  exact hpairs rfl

/-- The last workload and the last size within the bounds, and the first
    workload at the size before. -/
theorem seeds_collide_only_if_stacked_alike_bounds :
    ofWorkload 0xFFFF 0xFFFFFFFFFFFF ≠ ofWorkload 0 0xFFFFFFFFFFFE ∧ ofRound 5 0 ≠ ofRound 5 1 := by
  obtain ⟨hround, _, _, hworkload⟩ := seeds_collide_only_if_stacked_alike
  exact ⟨hworkload _ _ _ _ (by decide) (by decide) (by decide) (by decide) (by decide),
    fun hseed => absurd ((hround 5 0 1).mp hseed) (by decide)⟩

/-- A workload past 2^16 is shifted out of its seed. -/
example : ofWorkload 0x10000 7 = ofWorkload 0 7 := by decide

end RedBlack.Seed
