import OmniCompiler.Xmp.ArrayLayout
import OmniCompiler.Xmp.CommSet

/-!
# The section of an array dimension owned by a node (`xmp_gmove.c`)

`get_owner_csd` describes, on any node, the indices of one dimension that the nodes with
given coordinates own. The end of a block is the smaller of an unsigned and a signed
number, so a block that ends below zero in a template that reaches zero is taken to extend
to the end of the template; `Claims` is ownership with that reading.
-/
namespace OmniCompiler.Xmp

open MachineInt ForLoop Progression BlockCyclic

variable {k d n : ℕ}

/-- The cut of a block at the array bounds in `get_owner_csd`. -/
def ownerInterval (ainfo : ArrayInfo d) (templateLower templateUpper : ℤ) : Option Bsd :=
  let alignLower := ainfo.serLower + ainfo.alignSubscript
  let alignUpper := ainfo.serUpper + ainfo.alignSubscript
  if templateLower ≤ alignLower ∧ templateUpper < alignLower then none
  else
    let l := if alignLower < templateLower then templateLower - ainfo.alignSubscript
      else ainfo.serLower
    if alignUpper < templateLower then none
    else
      let u := if templateUpper < alignUpper then templateUpper - ainfo.alignSubscript
        else ainfo.serUpper
      some ⟨l, u, 1, 1⟩

/-- `MIN` of an `unsigned long long` and a `long long`, stored in a `long long`. -/
def minULL (a b : ℤ) : ℤ := toLL (min (toULL a) (toULL b))

/-- `ncoord` holds the coordinates of the node in question. For a duplicated dimension the
source also reads `ncoord[-1]`, without using the value. -/
def getOwnerCsd (a : XmpArray k d n) (adim : Fin k) (ncoord : List ℕ) :
    Except String (Option Csd) :=
  let ainfo := a.info adim
  let sub := ainfo.alignSubscript
  match ainfo.alignManner, ainfo.alignTemplateIndex with
  | .duplication, _ | .notAligned, _ =>
    .ok (bsd2csd (some ⟨ainfo.serLower, ainfo.serUpper, 1, 1⟩))
  | _, none => .error "null template"
  | .block, some tdim =>
    let tinfo := a.alignTemplate.info tdim
    let tchunk := a.alignTemplate.chunk tdim
    let nidx : ℤ := tchunk.ontoNodesIndex.elim 0 fun j => ncoord.getD j 0
    let templateLower := tinfo.serLower + tchunk.parChunkWidth * nidx
    let templateUpper := minULL (tinfo.serLower + tchunk.parChunkWidth * (nidx + 1) - 1)
      tinfo.serUpper
    .ok (bsd2csd (ownerInterval ainfo templateLower templateUpper))
  | .cyclic, some tdim | .blockCyclic, some tdim =>
    let tinfo := a.alignTemplate.info tdim
    let tchunk := a.alignTemplate.chunk tdim
    let nidx : ℤ := tchunk.ontoNodesIndex.elim 0 fun j => ncoord.getD j 0
    let bsd : Bsd := ⟨toInt (tinfo.serLower + nidx * tchunk.parWidth - sub),
      toInt (tinfo.serUpper - sub), toInt tchunk.parWidth, tchunk.parStride⟩
    let bsdDeclare : Bsd := ⟨ainfo.serLower, ainfo.serUpper, 1, 1⟩
    intersectionCsds (bsd2csd (some bsd)) (bsd2csd (some bsdDeclare))
  | .gblock, some tdim =>
    let tchunk := a.alignTemplate.chunk tdim
    let nidx : ℕ := tchunk.ontoNodesIndex.elim 0 fun j => ncoord.getD j 0
    .ok (bsd2csd (ownerInterval ainfo (tchunk.mappingArray nidx)
      (tchunk.mappingArray (nidx + 1) - 1)))

/-! ## What the section describes -/

/-- Ownership with the end of a block as `get_owner_csd` computes it. -/
def ClaimedIndex (ti : TemplateInfo) (ni : NodesInfo) : DistFormat → ℤ → Prop
  | .block, g =>
    let w := ceilDiv ti.serSize ni.size
    ti.serLower + w * ni.rank ≤ g ∧
      (g ≤ ti.serLower + w * (ni.rank + 1) - 1 ∨
        ti.serLower + w * (ni.rank + 1) - 1 < 0 ∧ 0 ≤ ti.serUpper)
  | fmt, g => Owned ti ni fmt g

instance (ti : TemplateInfo) (ni : NodesInfo) (fmt : DistFormat) (g : ℤ) :
    Decidable (ClaimedIndex ti ni fmt g) :=
  match fmt with
  | .block => inferInstanceAs (Decidable (_ ∧ _))
  | .duplication => inferInstanceAs (Decidable (Owned ti ni .duplication g))
  | .cyclic => inferInstanceAs (Decidable (Owned ti ni .cyclic g))
  | .blockCyclic w => inferInstanceAs (Decidable (Owned ti ni (.blockCyclic w) g))
  | .gblock m => inferInstanceAs (Decidable (Owned ti ni (.gblock m) g))

namespace ArrayDecl

variable (decl : ArrayDecl k d n)

/-- `TargetOwned` as `get_owner_csd` computes it. -/
def TargetClaimed (c : decl.Coord) : Option (Fin d × ℤ) → ℤ → Prop
  | none, _ => True
  | some (t, sub), g =>
    ClaimedIndex (decl.template t) (decl.nodesInfo c t) (decl.dist t).2 (g + sub)

instance (c : decl.Coord) (target : Option (Fin d × ℤ)) (g : ℤ) :
    Decidable (decl.TargetClaimed c target g) :=
  match target with
  | none => inferInstanceAs (Decidable True)
  | some (t, sub) => inferInstanceAs
    (Decidable (ClaimedIndex (decl.template t) (decl.nodesInfo c t) (decl.dist t).2 (g + sub)))

/-- Index `g` of dimension `i` is taken to belong to the nodes with coordinates `c`. -/
def Claims (c : decl.Coord) (i : Fin k) (g : ℤ) : Prop :=
  decl.lower i ≤ g ∧ g ≤ decl.upper i ∧ decl.TargetClaimed c (decl.target i) g

instance (c : decl.Coord) (i : Fin k) (g : ℤ) : Decidable (decl.Claims c i g) :=
  inferInstanceAs (Decidable (_ ∧ _))

/-- Distance between consecutive blocks of one node; `1` where a node owns one block. -/
def period (i : Fin k) : ℤ :=
  match decl.target i with
  | none => 1
  | some (t, _) =>
    match (decl.dist t).2 with
    | .cyclic => decl.nodesSize (decl.dist t).1
    | .blockCyclic w => decl.nodesSize (decl.dist t).1 * w
    | .duplication | .block | .gblock _ => 1

/-- The descriptors of the sections of dimension `i` stay inside `int`, and so do the ends of the
loops over them. -/
structure SectionInInt (i : Fin k) : Prop where
  period : InInt (decl.period i)
  lower : InInt (decl.lower i)
  upper : InInt (decl.upper i + 1)
  dealt : ∀ t sub, decl.target i = some (t, sub) →
    ((decl.dist t).2 = .cyclic ∨ ∃ w, (decl.dist t).2 = .blockCyclic w) →
      InInt ((decl.template t).serLower - sub) ∧
        InInt ((decl.template t).serUpper - sub + 2 * decl.period i)

end ArrayDecl

/-- The descriptor of a set of indices of a dimension with the given bounds: one interval,
possibly empty, or whole residue classes modulo the period. -/
inductive IsOwnerSection (lower upper period : ℤ) (S : Set ℤ) : Option Csd → Prop
  | null (hS : S = ∅) : IsOwnerSection lower upper period S none
  | interval {a b : ℤ} (hS : S = Set.Icc a b) (hp : period = 1) :
      IsOwnerSection lower upper period S (some ⟨[(a, b)], 1⟩)
  | classes {c : Csd} (hS : c.elems = S) (hp : ∀ r ∈ c.rsds, r.s = period)
      (hw : c.Window lower upper) : IsOwnerSection lower upper period S (some c)

theorem bsd2csd_one (l u : ℤ) : bsd2csd (some ⟨l, u, 1, 1⟩) = some ⟨[(l, u)], 1⟩ := by
  simp [bsd2csd]

theorem ownerInterval_isOwnerSection {ainfo : ArrayInfo d} {tl tu : ℤ} :
    IsOwnerSection ainfo.serLower ainfo.serUpper 1
      {g | ainfo.serLower ≤ g ∧ g ≤ ainfo.serUpper ∧ tl ≤ g + ainfo.alignSubscript ∧
        g + ainfo.alignSubscript ≤ tu} (bsd2csd (ownerInterval ainfo tl tu)) := by
  have hle := ainfo.lower_le_upper
  have hnull : ∀ {S : Set ℤ}, (∀ g, g ∉ S) →
      IsOwnerSection ainfo.serLower ainfo.serUpper 1 S (bsd2csd none) := fun h =>
    .null (Set.eq_empty_of_forall_notMem h)
  unfold ownerInterval
  dsimp only
  split_ifs with h1 h2 h3 h4 <;> try rw [bsd2csd_one]
  any_goals
    refine hnull ?_
    rintro g ⟨hg1, hg2, hg3, hg4⟩
    omega
  all_goals
    refine .interval ?_ rfl
    ext g
    simp only [Set.mem_ofPred_eq, Set.mem_Icc]
    constructor
    · rintro ⟨hg1, hg2, hg3, hg4⟩
      constructor <;> omega
    · rintro ⟨hg1, hg2⟩
      refine ⟨?_, ?_, ?_, ?_⟩ <;> omega

/-- The unsigned comparison matters only for a block that ends below zero. -/
theorem le_minULL_iff {a b g : ℤ} (ha0 : -2 ^ 63 ≤ a) (ha1 : a < 2 ^ 63) (hb0 : -2 ^ 63 ≤ b)
    (hb1 : b < 2 ^ 63) (hg : g ≤ b) : g ≤ minULL a b ↔ g ≤ a ∨ a < 0 ∧ 0 ≤ b := by
  unfold minULL toULL toLL
  rcases min_cases (a % 2 ^ 64) (b % 2 ^ 64) with ⟨h1, h2⟩ | ⟨h1, h2⟩
  · rw [h1]
    omega
  · rw [h1]
    omega

section Cyclic

variable {P : ℕ} {r : ℕ} {w lower upper base U : ℤ}

theorem mem_bsd2csd_rsds {b : Bsd} {c : Csd} (h : bsd2csd (some b) = some c) {x : Rsd} :
    x ∈ c.rsds ↔ ∃ i : ℕ, (i : ℤ) < b.b ∧
      x = ⟨b.l + i, b.l + i + b.c * (b.u - (b.l + i)).tdiv b.c, b.c⟩ := by
  cases h
  simp only [Csd.rsds, List.map_map, List.mem_map, List.mem_range, Function.comp]
  constructor
  · rintro ⟨i, hi, rfl⟩
    exact ⟨i, by omega, rfl⟩
  · rintro ⟨i, hi, rfl⟩
    exact ⟨i, by omega, rfl⟩

theorem bsd2csd_nodup {b : Bsd} {c : Csd} (h : bsd2csd (some b) = some c) : c.rsds.Nodup := by
  cases h
  rw [Csd.rsds, List.map_map]
  refine List.nodup_range.map ?_
  intro i i' hii
  have := congrArg Rsd.l hii
  simp only [Function.comp] at this
  omega

theorem full_of_le {l c : ℤ} (hc : 0 < c) (hl : base ≤ l) (hl' : l < base + c) (hU : l ≤ U) :
    Rsd.Full ⟨l, l + c * (U - l).tdiv c, c⟩ base U := by
  have hdm := Int.tmod_add_tdiv_mul (U - l) c
  have h0 := Int.tmod_nonneg c (show 0 ≤ U - l by omega)
  have h1 := Int.tmod_lt_of_pos (U - l) hc
  have h2 : 0 ≤ (U - l).tdiv c := Int.tdiv_nonneg (by omega) hc.le
  have h3 := mul_nonneg hc.le h2
  have hcomm : c * (U - l).tdiv c = (U - l).tdiv c * c := mul_comm _ _
  exact ⟨⟨hc, by dsimp only; omega⟩, by simp, hl, hl', by dsimp only; omega, by dsimp only; omega⟩

theorem tdiv_eq_zero_of_past {l c : ℤ} (hl : U < l) (hc : l < U + c) : (U - l).tdiv c = 0 := by
  rw [← neg_sub, Int.neg_tdiv, Int.tdiv_eq_zero_of_lt (by omega) (by omega), neg_zero]

theorem cyclicSection (hw : 0 < w) (hr : r < P) (hlu : lower ≤ upper) (hbase : base ≤ lower)
    (hU : upper ≤ U) (hperiod : InInt (P * w)) (hsize : InInt (U - base)) (hb : InInt base)
    (hend : InInt (U + 2 * (P * w))) :
    ∃ c, intersectionCsds (bsd2csd (some ⟨base + r * w, U, w, P * w⟩))
        (bsd2csd (some ⟨lower, upper, 1, 1⟩)) = .ok (some c) ∧
      IsOwnerSection lower upper (P * w)
        {g | lower ≤ g ∧ g ≤ upper ∧ owner w P (g - base) = r} (some c) := by
  have hP : (0 : ℤ) < P := by exact_mod_cast (Nat.zero_le r).trans_lt hr
  have hr0 : (0 : ℤ) ≤ r := by positivity
  have hr1 : (r : ℤ) < P := by exact_mod_cast hr
  have hPw : 0 < P * w := by positivity
  have hblock : (r : ℤ) * w + w ≤ P * w := by nlinarith
  have hrw : 0 ≤ (r : ℤ) * w := by positivity
  rw [bsd2csd_one]
  obtain ⟨c1, hc1⟩ : ∃ c1, bsd2csd (some ⟨base + r * w, U, w, P * w⟩) = some c1 := ⟨_, rfl⟩
  have hwf1 : c1.WF := by
    refine bsd2csd_wf ?_ ?_ ?_ hc1 <;> dsimp only <;> nlinarith
  set c2 : Csd := ⟨[(lower, upper)], 1⟩ with hc2
  have hr2 : ∀ r2 ∈ c2.rsds, r2 = ⟨lower, upper, 1⟩ := by simp [hc2, Csd.rsds]
  have hf2 : Rsd.Full ⟨lower, upper, 1⟩ lower upper :=
    ⟨⟨one_pos, hlu⟩, by simp, le_rfl, by dsimp only; omega, le_rfl, by dsimp only; omega⟩
  have hwf2 : c2.WF := by
    constructor
    · intro r2 h
      rw [hr2 r2 h]
      exact hf2.wf
    · simp [hc2, Csd.rsds]
  -- A component is a whole class unless it starts past the end of the template.
  have hf1 : ∀ r1 ∈ c1.rsds, r1.Full base U ∨ U < r1.l ∧ r1.u = r1.l := by
    intro r1 h
    obtain ⟨i, hi, rfl⟩ := (mem_bsd2csd_rsds hc1).mp h
    dsimp only at hi ⊢
    rcases le_or_gt (base + r * w + i) U with hle | hgt
    · exact Or.inl (full_of_le hPw (by omega) (by omega) hle)
    · exact Or.inr ⟨hgt, by rw [tdiv_eq_zero_of_past hgt (by omega), mul_zero, add_zero]⟩
  have hph : ∀ r1 ∈ c1.rsds, ∀ r2 ∈ c2.rsds, ¬ r1.Phantom r2 := by
    intro r1 h1 r2 h2
    obtain rfl := hr2 r2 h2
    refine Rsd.not_phantom_of_dvd_right (hwf1.comp r1 h1) hf2.wf ?_ (one_dvd _) (one_dvd _)
    rcases hf1 r1 h1 with hf | ⟨-, hu⟩
    · exact hf.normal
    · simp [hu]
  have hmeet : MeetFull c1 c2 base U lower upper := by
    intro r1 h1 r2 h2 hm
    obtain rfl := hr2 r2 h2
    obtain ⟨x, hx1, hx2⟩ := hm
    rcases hf1 r1 h1 with hf | ⟨hgt, -⟩
    · exact ⟨hf, hf2⟩
    · have := hx1.1
      have := hx2.2.1
      dsimp only at this
      omega
  have hfit : c1.FitsWith c2 := by
    intro r1 h1 r2 h2
    obtain rfl := hr2 r2 h2
    obtain ⟨hp0, hp1⟩ := hperiod
    obtain ⟨hs0, hs1⟩ := hsize
    obtain ⟨hb0, hb1⟩ := hb
    obtain ⟨he0, he1⟩ := hend
    have hs : r1.s = P * w := by
      cases hc1
      obtain ⟨p, -, rfl⟩ := List.mem_map.mp h1
      rfl
    have hl : base ≤ r1.l ∧ r1.l < base + P * w := by
      obtain ⟨i, hi, rfl⟩ := (mem_bsd2csd_rsds hc1).mp h1
      dsimp only at hi ⊢
      omega
    have hle := (hwf1.comp r1 h1).le
    have hu : r1.u ≤ U ∨ r1.u = r1.l := (hf1 r1 h1).imp Rsd.Full.upper And.right
    refine ⟨by simpa [hs] using ⟨hp0, hp1⟩, ?_, ?_, ?_⟩ <;> dsimp only
    · exact ⟨by omega, by omega⟩
    · exact ⟨by omega, by omega⟩
    · rw [hs]
      exact ⟨⟨by omega, by omega⟩, ⟨by omega, by omega⟩⟩
  have hwin :=
    sortedCsd_window hwf1 hwf2 hfit (bsd2csd_nodup hc1) (by simp [hc2, Csd.rsds]) hph hmeet
  rw [max_eq_right hbase, min_eq_right hU] at hwin
  refine ⟨sortedCsd (crossHits c1 c2), ?_, .classes ?_ ?_ hwin⟩
  · rw [hc1]
    exact intersectionCsds_of_le_one c1 c2 le_rfl
  · rw [sortedCsd_elems_eq hwf1 hwf2 hfit hph]
    ext g
    have hdecl : g ∈ c2.elems ↔ lower ≤ g ∧ g ≤ upper := by
      simp [hc2, Csd.elems, Csd.rsds, Rsd.elems, strided]
    rw [Set.mem_inter_iff, hdecl, Set.mem_ofPred_eq]
    constructor
    · rintro ⟨⟨r1, h1, hx⟩, hg1, hg2⟩
      refine ⟨hg1, hg2, (owner_eq_iff hw hr0 hr1 _).mpr ?_⟩
      obtain ⟨i, hi, rfl⟩ := (mem_bsd2csd_rsds hc1).mp h1
      obtain ⟨-, -, t, ht⟩ := hx
      dsimp only at hi ht
      exact ⟨t, i, by omega, hi, by linarith⟩
    · rintro ⟨hg1, hg2, ho⟩
      obtain ⟨t, j, ht, hj0, hj1, hx⟩ :=
        (owner_eq_iff_of_nonneg hw hr0 hr1 (show 0 ≤ g - base by omega)).mp ho
      have hpos : 0 ≤ t * (P * w) := by positivity
      refine ⟨⟨⟨base + r * w + j.toNat, _, P * w⟩, (mem_bsd2csd_rsds hc1).mpr
        ⟨j.toNat, by dsimp only; omega, rfl⟩, ?_⟩, hg1, hg2⟩
      dsimp only
      have hj : ((j.toNat : ℕ) : ℤ) = j := Int.toNat_of_nonneg hj0
      rw [hj]
      have hf := full_of_le hPw (show base ≤ base + r * w + j by omega) (by omega)
        (show base + r * w + j ≤ U by nlinarith)
      refine (hf.mem_iff g).mpr ⟨by omega, by omega, t, ?_⟩
      dsimp only
      linarith
  · intro r0 h0
    rw [mem_sortedCsd_rsds (crossHits_stride hwf1 hwf2 hfit)] at h0
    have hs1 : c1.s = P * w := by
      cases hc1
      rfl
    rw [crossHits_stride hwf1 hwf2 hfit r0 h0, hs1, lcm_eq hPw one_pos (by simpa using hperiod)]
    simp [hw.le]

end Cyclic

theorem wholeSection {lower upper : ℤ} {S : Set ℤ} (hS : ∀ g, g ∈ S ↔ lower ≤ g ∧ g ≤ upper) :
    IsOwnerSection lower upper 1 S (bsd2csd (some ⟨lower, upper, 1, 1⟩)) := by
  rw [bsd2csd_one]
  refine .interval ?_ rfl
  ext g
  rw [hS, Set.mem_Icc]

theorem blockEnd_limit {ti : TemplateInfo} {ni : NodesInfo} :
    -2 ^ 63 ≤ ti.serLower + ceilDiv ti.serSize ni.size * (ni.rank + 1) - 1 ∧
      ti.serLower + ceilDiv ti.serSize ni.size * (ni.rank + 1) - 1 < 2 ^ 63 := by
  have hN := ti.serUpper_eq
  have hW := ceilDiv_pos ti.serSize_pos ni.size_pos
  have hle := (ceilDiv_bounds ti.serSize_pos.le ni.size_pos).2
  have hr0 : (0 : ℤ) ≤ ni.rank := by positivity
  have hr1 : (ni.rank : ℤ) + 1 ≤ ni.size := by exact_mod_cast ni.rank.isLt
  have hP' : (ni.size : ℤ) < 2 ^ 31 := by exact_mod_cast ni.size_lt
  obtain ⟨hl0, hl1⟩ := ti.lower_inInt
  obtain ⟨hu0, hu1⟩ := ti.upper_inInt
  have h1 : ceilDiv ti.serSize ni.size * (ni.rank + 1) ≤ ceilDiv ti.serSize ni.size * ni.size :=
    mul_le_mul_of_nonneg_left hr1 hW.le
  have h2 : 0 ≤ ceilDiv ti.serSize ni.size * (ni.rank + 1) := by positivity
  constructor
  · omega
  · nlinarith

theorem ArrayDecl.template_range (decl : ArrayDecl k d n) (t : Fin d) (sub : ℤ) :
    InInt ((decl.template t).serUpper - sub - ((decl.template t).serLower - sub)) := by
  have hle := (decl.template t).lower_le_upper
  obtain ⟨-, hlt⟩ := (decl.template t).count_inInt
  constructor <;> omega

theorem ArrayDecl.sectionInInt_bounds (decl : ArrayDecl k d n) (c : decl.Coord) {t : Fin d}
    {sub w lower upper : ℤ} (hw : 0 < w) (hlow : (decl.template t).serLower ≤ lower + sub)
    (hup : upper + sub ≤ (decl.template t).serUpper) (hle : lower ≤ upper)
    (hb : InInt ((decl.template t).serLower - sub))
    (he : InInt ((decl.template t).serUpper - sub + 2 * (decl.nodesSize (decl.dist t).1 * w))) :
    InInt ((decl.template t).serLower + (c (decl.dist t).1 : ℕ) * w - sub) ∧
      InInt ((decl.template t).serUpper - sub) ∧ InInt w := by
  obtain ⟨hb0, hb1⟩ := hb
  obtain ⟨he0, he1⟩ := he
  have hr0 : 0 ≤ ((c (decl.dist t).1 : ℕ) : ℤ) * w := by positivity
  have hr1 : (((c (decl.dist t).1 : ℕ) : ℤ) + 1) * w ≤ decl.nodesSize (decl.dist t).1 * w :=
    mul_le_mul_of_nonneg_right (by exact_mod_cast (c (decl.dist t).1).isLt) hw.le
  rw [add_mul, one_mul] at hr1
  refine ⟨⟨by omega, by omega⟩, ⟨by omega, by omega⟩, ⟨by omega, ?_⟩⟩
  omega

/-- On every node `get_owner_csd` describes the indices claimed for the coordinates. -/
theorem getOwnerCsd_isOwnerSection {decl : ArrayDecl k d n} {a : XmpArray k d n} {i : Fin k}
    (h : DescribedDim decl a i) (hfit : decl.SectionInInt i) (c : decl.Coord) {ncoord : List ℕ}
    (hc : ∀ j : Fin n, ncoord.getD j 0 = c j) :
    ∃ oc, getOwnerCsd a i ncoord = .ok oc ∧
      IsOwnerSection (decl.lower i) (decl.upper i) (decl.period i) {g | decl.Claims c i g} oc := by
  have hle := decl.lower_le_upper i
  cases htar : decl.target i with
  | none =>
    obtain ⟨hm, -⟩ := h.unaligned htar
    simp only [getOwnerCsd, hm, h.lower, h.upper, ArrayDecl.period, ArrayDecl.Claims, htar,
      ArrayDecl.TargetClaimed, and_true]
    exact ⟨_, rfl, wholeSection fun g => Iff.rfl⟩
  | some target =>
    obtain ⟨t, sub⟩ := target
    obtain ⟨hm, hsub, hidx, hinfo, hlow, hup, hrep⟩ := h.aligned t sub htar
    have hown := @ownerInterval_isOwnerSection d (a.info i)
    rw [h.lower, h.upper, hsub] at hown
    simp only [ArrayDecl.period, ArrayDecl.Claims, htar, ArrayDecl.TargetClaimed]
    match hfmt : (decl.dist t).2 with
    | .duplication =>
      rw [hfmt, ReplicatedChunk] at hrep
      rw [hrep] at hm
      simp only [getOwnerCsd, hm, DistManner.alignManner, h.lower, h.upper, ClaimedIndex, Owned,
        and_true]
      exact ⟨_, rfl, wholeSection fun g => Iff.rfl⟩
    | .block =>
      rw [hfmt, ReplicatedChunk] at hrep
      obtain ⟨hman, honto, hwidth⟩ := hrep
      rw [hman] at hm
      obtain ⟨hb0, hb1⟩ := @blockEnd_limit (decl.template t) (decl.nodesInfo c t)
      obtain ⟨hlim0, hlim1⟩ := (decl.template t).upper_inInt
      have htl := (decl.template t).lower_le_upper
      refine ⟨_, by simp only [getOwnerCsd, hm, DistManner.alignManner, hidx]; rfl, ?_⟩
      rw [honto, Option.elim_some, hc, hinfo, hwidth]
      have hset : ∀ g, decl.lower i ≤ g ∧ g ≤ decl.upper i ∧
          ClaimedIndex (decl.template t) (decl.nodesInfo c t) .block (g + sub) ↔
          decl.lower i ≤ g ∧ g ≤ decl.upper i ∧
            (decl.template t).serLower + ceilDiv (decl.template t).serSize
              (decl.nodesSize (decl.dist t).1) * (c (decl.dist t).1 : ℕ) ≤ g + sub ∧
            g + sub ≤ minULL ((decl.template t).serLower + ceilDiv (decl.template t).serSize
              (decl.nodesSize (decl.dist t).1) * ((c (decl.dist t).1 : ℕ) + 1) - 1)
              (decl.template t).serUpper := by
        intro g
        refine and_congr_right fun _ => and_congr_right fun hg => and_congr_right fun _ => ?_
        exact (le_minULL_iff hb0 hb1 (by omega) (by omega) (by omega)).symm
      simp only [hset]
      exact hown
    | .cyclic =>
      rw [hfmt, ReplicatedChunk] at hrep
      obtain ⟨hman, honto, hwidth, hstride⟩ := hrep
      rw [hman] at hm
      obtain ⟨hb, he⟩ := hfit.dealt t sub htar (Or.inl hfmt)
      have hper := hfit.period
      have hP : decl.period i = decl.nodesSize (decl.dist t).1 * 1 := by
        simp only [ArrayDecl.period, htar, hfmt, mul_one]
      rw [hP] at he hper
      rw [toInt_of_inInt hper] at hstride
      obtain ⟨hl, hu, hw⟩ := decl.sectionInInt_bounds c one_pos hlow hup hle hb he
      obtain ⟨oc, hoc, hsec⟩ := @cyclicSection _ (c (decl.dist t).1) 1 _ _
        ((decl.template t).serLower - sub) ((decl.template t).serUpper - sub) one_pos
        (c (decl.dist t).1).isLt hle (by omega) (by omega) hper (decl.template_range t sub) hb he
      refine ⟨some oc, ?_, ?_⟩
      · simp only [getOwnerCsd, hm, DistManner.alignManner, hidx, h.lower, h.upper, hsub, hinfo,
          honto, Option.elim_some, hc, hwidth, hstride, if_true, toInt_of_inInt hl,
          toInt_of_inInt hu,
          toInt_of_inInt hw]
        rw [← hoc, sub_add_eq_add_sub]
      · simpa [ClaimedIndex, Owned, ArrayDecl.nodesInfo, sub_sub_eq_add_sub] using hsec
    | .blockCyclic w =>
      rw [hfmt, ReplicatedChunk] at hrep
      obtain ⟨hman, honto, hwidth, hstride⟩ := hrep
      obtain ⟨hb, he⟩ := hfit.dealt t sub htar (Or.inr ⟨w, hfmt⟩)
      have hper := hfit.period
      have hP : decl.period i = decl.nodesSize (decl.dist t).1 * w := by
        simp only [ArrayDecl.period, htar, hfmt]
      rw [hP] at he hper
      rw [toInt_of_inInt hper] at hstride
      have hw0 := decl.width_pos t w hfmt
      obtain ⟨hl, hu, hw⟩ := decl.sectionInInt_bounds c hw0 hlow hup hle hb he
      obtain ⟨oc, hoc, hsec⟩ := @cyclicSection _ (c (decl.dist t).1) w _ _
        ((decl.template t).serLower - sub) ((decl.template t).serUpper - sub) hw0
        (c (decl.dist t).1).isLt hle (by omega) (by omega) hper (decl.template_range t sub) hb he
      refine ⟨some oc, ?_, ?_⟩
      · have hm' : (a.info i).alignManner = .cyclic ∨ (a.info i).alignManner = .blockCyclic := by
          rw [hm, hman]
          split_ifs
          · exact Or.inl rfl
          · exact Or.inr rfl
        rcases hm' with hm' | hm' <;>
          simp only [getOwnerCsd, hm', hidx, h.lower, h.upper, hsub, hinfo,
            honto, Option.elim_some, hc, hwidth, hstride, toInt_of_inInt hl, toInt_of_inInt hu,
            toInt_of_inInt hw] <;>
          rw [← hoc, sub_add_eq_add_sub]
      · simpa [ClaimedIndex, Owned, ArrayDecl.nodesInfo, sub_sub_eq_add_sub] using hsec
    | .gblock none =>
      rw [hfmt] at hrep
      exact hrep.elim
    | .gblock (some m) =>
      rw [hfmt, ReplicatedChunk] at hrep
      obtain ⟨hman, honto, hmap, -⟩ := hrep
      rw [hman] at hm
      refine ⟨_, by simp only [getOwnerCsd, hm, DistManner.alignManner, hidx]; rfl, ?_⟩
      rw [honto, Option.elim_some, hc, hmap]
      simp only [ClaimedIndex, Owned, ← Int.le_sub_one_iff]
      exact hown

end OmniCompiler.Xmp
