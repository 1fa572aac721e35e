import Mathlib.Data.Set.Card
import OmniCompiler.Xmp.OwnerSection

/-!
# Basic section descriptors (`xmp_section_desc.c`)

`bsd2csd` cuts every residue class of a block on its own with a truncating division. A class that
begins past the upper bound keeps its first element.
-/
namespace OmniCompiler.Xmp

open MachineInt ForLoop Progression

/-- The first `b` of every `c` indices, from `l` up to `u`. -/
def Bsd.elems (bsd : Bsd) : Set ℤ := {x | bsd.l ≤ x ∧ x ≤ bsd.u ∧ (x - bsd.l) % bsd.c < bsd.b}

def getCsdSize (csd : Csd) : ℤ :=
  csd.comps.foldl (fun size p => size + countTriplet p.1 p.2 csd.s) 0

/-- The descriptor has the elements of the basic section, and counts them. -/
def Bsd.Described (bsd : Bsd) : Prop :=
  ∃ csd, bsd2csd (some bsd) = some csd ∧ csd.elems = bsd.elems ∧
    getCsdSize csd = bsd.elems.ncard

/-! ## Counting the elements of a descriptor -/

theorem foldl_size (s : ℤ) (comps : List (ℤ × ℤ)) (size : ℤ) :
    comps.foldl (fun size p => size + countTriplet p.1 p.2 s) size =
      size + (comps.map fun p => countTriplet p.1 p.2 s).sum := by
  induction comps generalizing size with
  | nil => simp
  | cons p comps ih =>
    rw [List.foldl_cons, ih, List.map_cons, List.sum_cons, add_assoc]

/-- The elements, component by component. -/
def Csd.values (c : Csd) : List ℤ := c.rsds.flatMap fun r => loopValues r.l (r.u + 1) r.s

theorem Csd.mem_values {c : Csd} (h : c.WF) (x : ℤ) : x ∈ c.values ↔ x ∈ c.elems := by
  rw [Csd.values, List.mem_flatMap, Csd.elems, Set.mem_ofPred_eq]
  refine exists_congr fun r => and_congr_right fun hr => ?_
  rw [mem_loopValues_of_pos (h.comp r hr).pos, Int.lt_add_one_iff]
  rfl

theorem Csd.nodup_values {c : Csd} (h : c.WF) (hn : c.rsds.Nodup) : c.values.Nodup := by
  refine List.nodup_flatMap.mpr ⟨fun r hr => loopValues_nodup (h.comp r hr).pos.ne', ?_⟩
  refine hn.imp_of_mem fun {r r'} hr hr' hne x hx hx' => hne ?_
  have hd := ((mem_loopValues_of_pos (h.comp r hr).pos x).mp hx).2.2
  have hd' := ((mem_loopValues_of_pos (h.comp r' hr').pos x).mp hx').2.2
  rw [c.s_of_mem hr] at hd
  rw [c.s_of_mem hr'] at hd'
  refine (h.residue r hr r' hr' ?_).symm
  have := dvd_sub hd hd'
  rwa [sub_sub_sub_cancel_left] at this

theorem length_loopValues_component {l u s : ℤ} (hs : 0 < s) (h : l ≤ u) :
    ((loopValues l (u + 1) s).length : ℤ) = countTriplet l u s := by
  have hdm := Int.tmod_add_tdiv_mul (u - l) s
  have h0 := Int.tmod_nonneg s (show 0 ≤ u - l by omega)
  have h1 := Int.tmod_lt_of_pos (u - l) hs
  have hq : 0 ≤ (u - l).tdiv s := Int.tdiv_nonneg (by omega) hs.le
  rw [loopValues_length hs.ne', countTriplet]
  have hcount : ∀ k : ℕ, k < loopCount l (u + 1) s ↔ (k : ℤ) < (u - l).tdiv s + 1 := by
    intro k
    rw [lt_loopCount_iff hs.ne', ForLoop.reach, if_pos hs, Int.natAbs_of_nonneg hs.le]
    constructor
    · intro hk
      by_contra hc
      nlinarith
    · intro hk
      nlinarith
  have hlow := (hcount ((u - l).tdiv s + 1).toNat).not
  have hup := hcount (((u - l).tdiv s + 1).toNat - 1)
  omega

theorem Csd.WF.size_eq {c : Csd} (h : c.WF) (hn : c.rsds.Nodup) :
    getCsdSize c = c.elems.ncard := by
  have hset : c.elems = ↑c.values.toFinset := by
    ext x
    rw [List.coe_toFinset, Set.mem_ofPred_eq, c.mem_values h]
  have hlen : getCsdSize c = c.values.length := by
    rw [getCsdSize, foldl_size, zero_add, Csd.values, List.length_flatMap, Csd.rsds, List.map_map,
      Nat.cast_list_sum, List.map_map]
    refine congrArg List.sum (List.map_congr_left fun p hp => ?_)
    have hwf := h.comp _ (c.mem_rsds hp)
    exact (length_loopValues_component hwf.pos hwf.le).symm
  rw [hset, Set.ncard_coe_finset, List.toFinset_card_of_nodup (c.nodup_values h hn), hlen]

/-! ## The residue classes of a block -/

section

variable {bsd : Bsd} {csd : Csd}

theorem mem_class_iff {l u b c x : ℤ} (hb : 1 ≤ b) (hbc : b ≤ c) (hlast : l + b - 1 ≤ u) :
    (∃ i : ℕ, (i : ℤ) < b ∧ x ∈ strided (l + i) (l + i + c * (u - (l + i)).tdiv c) c) ↔
      l ≤ x ∧ x ≤ u ∧ (x - l) % c < b := by
  have hc : 0 < c := by omega
  constructor
  · rintro ⟨i, hi, hx⟩
    rw [strided_round hc (by omega)] at hx
    obtain ⟨h1, h2, k, hk⟩ := hx
    refine ⟨by omega, h2, ?_⟩
    have hpos : x - l = i + c * k := by rw [← hk]; ring
    rw [hpos, Int.add_mul_emod_self_left, Int.emod_eq_of_lt (by omega) (by omega)]
    exact hi
  · rintro ⟨h1, h2, h3⟩
    have h0 := Int.emod_nonneg (x - l) hc.ne'
    have hdm := Int.emod_add_mul_ediv (x - l) c
    have hq : 0 ≤ c * ((x - l) / c) := mul_nonneg hc.le (Int.ediv_nonneg (by omega) hc.le)
    refine ⟨((x - l) % c).toNat, by omega, ?_⟩
    rw [Int.toNat_of_nonneg h0, strided_round hc (by omega)]
    exact ⟨by omega, h2, (x - l) / c, by linarith⟩

theorem bsd2csd_elems (hb : 1 ≤ bsd.b) (hbc : bsd.b ≤ bsd.c) (hlast : bsd.l + bsd.b - 1 ≤ bsd.u)
    (h : bsd2csd (some bsd) = some csd) : csd.elems = bsd.elems := by
  ext x
  rw [Csd.elems, Set.mem_ofPred_eq, Bsd.elems, Set.mem_ofPred_eq, ← mem_class_iff hb hbc hlast]
  constructor
  · rintro ⟨r, hr, hx⟩
    obtain ⟨i, hi, rfl⟩ := (mem_bsd2csd_rsds h).mp hr
    exact ⟨i, hi, hx⟩
  · rintro ⟨i, hi, hx⟩
    exact ⟨_, (mem_bsd2csd_rsds h).mpr ⟨i, hi, rfl⟩, hx⟩

/-- A class that begins past the upper bound, by less than a period, is left with one element. -/
theorem bsd2csd_past (hbc : bsd.b ≤ bsd.c) (hlu : bsd.l ≤ bsd.u) (hlast : bsd.u < bsd.l + bsd.b - 1)
    (h : bsd2csd (some bsd) = some csd) : bsd.l + bsd.b - 1 ∈ csd.elems := by
  have hi : ((bsd.b - 1).toNat : ℤ) = bsd.b - 1 := Int.toNat_of_nonneg (by omega)
  have ht : (bsd.u - (bsd.l + (bsd.b - 1))).tdiv bsd.c = 0 := by
    rw [← neg_sub, Int.neg_tdiv, Int.tdiv_eq_zero_of_lt (by omega) (by omega), neg_zero]
  refine ⟨_, (mem_bsd2csd_rsds h).mpr ⟨(bsd.b - 1).toNat, by omega, rfl⟩, ?_⟩
  rw [hi, ht, mul_zero, add_zero]
  exact ⟨by dsimp only; omega, by dsimp only; omega, 0, by dsimp only; ring⟩

end

/-- The range of `int` for a basic section; its integers are exact. -/
structure Bsd.Fits (bsd : Bsd) : Prop where
  lower : InInt bsd.l
  upper : InInt bsd.u
  width : InInt bsd.b
  past : InInt (bsd.l + bsd.b)
  span : InInt (bsd.u - bsd.l + 1)

theorem bsd2csd_inInt {bsd : Bsd} (h : bsd.Fits) (hbc : bsd.b ≤ bsd.c) (hlu : bsd.l ≤ bsd.u)
    {i : ℕ} (hi : (i : ℤ) < bsd.b) : InInt (bsd.l + i) ∧ InInt (bsd.u - (bsd.l + i)) ∧
      InInt (bsd.c * (bsd.u - (bsd.l + i)).tdiv bsd.c) ∧
      InInt (bsd.l + i + bsd.c * (bsd.u - (bsd.l + i)).tdiv bsd.c) := by
  have hl := h.lower
  have hu := h.upper
  have hb := h.width
  have hpast := h.past
  have hspan := h.span
  unfold InInt at *
  have hdm := Int.mul_tdiv_add_tmod (bsd.u - (bsd.l + i)) bsd.c
  obtain hle | hlt := le_or_gt 0 (bsd.u - (bsd.l + i))
  · have hr := Int.tmod_nonneg bsd.c hle
    have hq : 0 ≤ bsd.c * (bsd.u - (bsd.l + i)).tdiv bsd.c :=
      mul_nonneg (by omega) (Int.tdiv_nonneg hle (by omega))
    omega
  · -- a class past the upper bound begins less than a period behind it
    have hq : (bsd.u - (bsd.l + i)).tdiv bsd.c = 0 := by
      rw [← neg_sub, Int.neg_tdiv, Int.tdiv_eq_zero_of_lt (by omega) (by omega), neg_zero]
    rw [hq, mul_zero]
    omega

/-- A basic section is described exactly when its first block is complete. -/
theorem bsd2csd_described_iff (bsd : Bsd) (hb : 1 ≤ bsd.b) (hbc : bsd.b ≤ bsd.c)
    (hlu : bsd.l ≤ bsd.u) : bsd.Described ↔ bsd.l + bsd.b - 1 ≤ bsd.u := by
  constructor
  · rintro ⟨csd, hcsd, helems, -⟩
    by_contra hlast
    have hmem := bsd2csd_past hbc hlu (by omega) hcsd
    rw [helems] at hmem
    exact hlast hmem.2.1
  · intro hlast
    obtain ⟨csd, hcsd⟩ : ∃ csd, bsd2csd (some bsd) = some csd := ⟨_, rfl⟩
    have hwf := bsd2csd_wf hb hbc (by omega) hcsd
    have helems := bsd2csd_elems hb hbc hlast hcsd
    refine ⟨csd, hcsd, helems, ?_⟩
    rw [hwf.size_eq (bsd2csd_nodup hcsd), helems]

/-- Two of every three indices from `1` to `8`. -/
theorem bsd2csd_described_three : Bsd.Described ⟨1, 8, 2, 3⟩ :=
  (bsd2csd_described_iff ⟨1, 8, 2, 3⟩ (by decide) (by decide) (by decide)).mpr (by decide)

/-- The block `0 : 1` cut after its first index: the index `1` is described as well. -/
theorem bsd2csd_cut_block : ¬ Bsd.Described ⟨0, 0, 2, 2⟩ := by
  rintro ⟨csd, hcsd, helems, -⟩
  have hmem : (1 : ℤ) ∈ csd.elems := by
    cases hcsd
    exact ⟨⟨1, 1, 2⟩, by decide, by decide⟩
  rw [helems] at hmem
  exact absurd hmem.2.1 (by decide)

end OmniCompiler.Xmp
