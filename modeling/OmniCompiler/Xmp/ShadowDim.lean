import OmniCompiler.Xmp.AlignedBlockCyclic
import OmniCompiler.Xmp.ArrayParts

/-!
# Local bounds under a shadow (`xmp_shadow.c`)

`_XMP_init_shadow` sets the shadows of all dimensions of an array, `_XMP_init_shadow_dim` that of
one dimension. Both shift the local bounds that the alignment has left. The shadow type and the
schedules for the exchange, which both set alike, are left out.
-/
namespace OmniCompiler.Xmp

open MachineInt BlockCyclic Runs SmallFin

variable {k d n : ℕ}

/-- `_XMP_init_shadow_dim` on the dimension it is called for. -/
def shadowDimInfo (isAllocated : Bool) (ai : ArrayInfo d) : Shadow → Except String (ArrayInfo d)
  | .none => .ok ai
  | .normal lo hi =>
    if lo < 0 then .error "<shadow-width> should be a nonnegative integer"
    else if hi < 0 then .error "<shadow-width> should be a nonnegative integer"
    else if lo = 0 ∧ hi = 0 then .ok ai
    else
      let ai := { ai with shadowSizeLo := lo, shadowSizeHi := hi }
      if isAllocated then
        .ok { ai with
          localLower := ai.localLower + lo
          localUpper := ai.localUpper + lo
          allocSize := ai.allocSize + (lo + hi) }
      else .ok ai
  | .full =>
    if isAllocated then
      .ok { ai with
        shadowSizeLo := ai.parLower - ai.serLower
        shadowSizeHi := ai.serUpper - ai.parUpper
        localLower := ai.parLower
        localUpper := ai.parUpper
        localStride := ai.parStride
        allocSize := ai.serSize }
    else .ok ai

/-- `_XMP_init_shadow_dim`. -/
def initShadowOfDim (array : XmpArray k d n) (i : Fin k) (shadow : Shadow) :
    Except String (XmpArray k d n) := do
  let ai ← shadowDimInfo array.isAllocated (array.info i) shadow
  .ok (array.setInfo i ai array.isAllocated)

/-- One call of `_XMP_init_shadow_dim` for each dimension. -/
def initShadowDims (array : XmpArray k d n) (shadow : Fin k → Shadow) :
    Except String (XmpArray k d n) :=
  (List.finRange k).foldlM (fun array i => initShadowOfDim array i (shadow i)) array

/-! ## Layouts -/

/-- `n + 1` elements are owned, in steps of `parStride` from `parLower` on. -/
def Steps (owned : ℤ → Prop) (ai : ArrayInfo d) (n : ℕ) : Prop :=
  ∀ g, owned g ↔ ∃ j : ℕ, j ≤ n ∧ g = ai.parLower + j * ai.parStride

/-- The owned elements end at `parUpper`. -/
def Spaced (owned : ℤ → Prop) (ai : ArrayInfo d) : Prop :=
  ∃ n : ℕ, ai.parUpper = ai.parLower + n * ai.parStride ∧ Steps owned ai n

/-- The element that is `j` steps of `parStride` after `parLower` has the local index `j` steps of
`localStride` after `localLower`. The last one is at `localUpper`, and all are inside the memory
once it has `lo` more elements before them and `hi` after them. -/
structure Laid (lo hi : ℤ) (owned : ℤ → Prop) (ai : ArrayInfo d) : Prop where
  lower : 0 ≤ ai.localLower + lo
  upper : ai.localUpper < ai.allocSize + hi
  elements : ∃ n : ℕ, ai.localUpper = ai.localLower + n * ai.localStride ∧ Steps owned ai n

/-- The local index of `g`. -/
def ArrayInfo.localIndex (ai : ArrayInfo d) (g : ℤ) : ℤ :=
  ai.localLower + (g - ai.parLower) * ai.localStride / ai.parStride

theorem Laid.localIndex {owned : ℤ → Prop} {ai : ArrayInfo d} (h : Laid 0 0 owned ai)
    (hstride : ai.parStride ≠ 0) (hlocal : 0 ≤ ai.localStride) {g : ℤ} (hg : owned g) :
    0 ≤ ai.localIndex g ∧ ai.localIndex g < ai.allocSize := by
  obtain ⟨hlower, hupper, n, hn, hsteps⟩ := h
  obtain ⟨j, hj, rfl⟩ := (hsteps g).mp hg
  have hidx : ai.localIndex (ai.parLower + j * ai.parStride) =
      ai.localLower + j * ai.localStride := by
    have hprod : (ai.parLower + j * ai.parStride - ai.parLower) * ai.localStride =
        j * ai.localStride * ai.parStride := by ring
    rw [ArrayInfo.localIndex, hprod, Int.mul_ediv_cancel _ hstride]
  have h0 := mul_nonneg (Int.natCast_nonneg j) hlocal
  have hle := mul_le_mul_of_nonneg_right (Nat.cast_le.mpr hj : (j : ℤ) ≤ n) hlocal
  rw [hidx]
  omega

theorem Steps.first {owned : ℤ → Prop} {ai : ArrayInfo d} {n : ℕ} (h : Steps owned ai n) :
    owned ai.parLower := (h _).mpr ⟨0, Nat.zero_le n, by simp⟩

theorem Steps.last {owned : ℤ → Prop} {ai : ArrayInfo d} {n : ℕ} (h : Steps owned ai n) :
    owned (ai.parLower + n * ai.parStride) := (h _).mpr ⟨n, le_rfl, rfl⟩

theorem steps_of_interval {owned : ℤ → Prop} {ai : ArrayInfo d} (hstride : ai.parStride = 1)
    (hle : ai.parLower ≤ ai.parUpper)
    (howned : ∀ g, owned g ↔ ai.parLower ≤ g ∧ g ≤ ai.parUpper) :
    Steps owned ai (ai.parUpper - ai.parLower).toNat := by
  intro g
  rw [howned, hstride]
  constructor
  · intro ⟨h0, h1⟩
    exact ⟨(g - ai.parLower).toNat, by omega, by omega⟩
  · intro ⟨j, hj, hg⟩
    omega

/-! ## The two functions on one dimension -/

def Shadow.Nonneg : Shadow → Prop
  | .normal lo hi => 0 ≤ lo ∧ 0 ≤ hi
  | _ => True

/-- What the dimension has to meet for its layout to be consistent under the shadow. -/
def Shadow.Keeps (owned : ℤ → Prop) (ai : ArrayInfo d) : Shadow → Prop
  | .none => Laid 0 0 owned ai
  | .normal lo hi => Laid lo hi owned ai
  | .full => ai.serLower = 0 ∧ Spaced owned ai

def ArrayInfo.widened (ai : ArrayInfo d) (lo hi : ℤ) : ArrayInfo d :=
  { ai with
    shadowSizeLo := lo
    shadowSizeHi := hi
    localLower := ai.localLower + lo
    localUpper := ai.localUpper + lo
    allocSize := ai.allocSize + (lo + hi) }

theorem laid_widened_iff {owned : ℤ → Prop} {ai : ArrayInfo d} {lo hi : ℤ} :
    Laid 0 0 owned (ai.widened lo hi) ↔ Laid lo hi owned ai := by
  constructor
  · intro ⟨hlower, hupper, n, hn, h⟩
    dsimp only [ArrayInfo.widened] at hlower hupper hn
    exact ⟨by omega, by omega, n, by omega, h⟩
  · intro ⟨hlower, hupper, n, hn, h⟩
    refine ⟨?_, ?_, n, ?_, h⟩
    all_goals
      dsimp only [ArrayInfo.widened]
      omega

/-- A dimension with room for all of the array, the elements of the node from `lower` to `upper`. -/
def ArrayInfo.whole (ai : ArrayInfo d) (lower upper : ℤ) : ArrayInfo d :=
  { ai with
    shadowSizeLo := ai.parLower - ai.serLower
    shadowSizeHi := ai.serUpper - ai.parUpper
    localLower := lower
    localUpper := upper
    localStride := ai.parStride
    allocSize := ai.serSize }

theorem laid_whole_iff {owned : ℤ → Prop} {ai : ArrayInfo d}
    (hin : ∀ g, owned g → ai.serLower ≤ g ∧ g ≤ ai.serUpper) :
    Laid 0 0 owned (ai.whole (ai.parLower - ai.serLower) (ai.parUpper - ai.serLower)) ↔
      Spaced owned ai := by
  constructor
  · intro ⟨_, _, n, hn, h⟩
    dsimp only [ArrayInfo.whole] at hn
    exact ⟨n, by omega, h⟩
  · intro ⟨n, hn, h⟩
    have hfirst := hin _ h.first
    have hlast := hin _ h.last
    rw [← hn] at hlast
    refine ⟨?_, ?_, n, ?_, h⟩
    all_goals
      dsimp only [ArrayInfo.whole, ArrayInfo.serSize]
      omega

theorem shadowDimInfo_iff {owned : ℤ → Prop} {ai : ArrayInfo d} {shadow : Shadow}
    (hshadow : shadow.Nonneg) (hin : ∀ g, owned g → ai.serLower ≤ g ∧ g ≤ ai.serUpper) :
    ∃ ai₁ ai₂, initShadowDim true ai shadow = .ok ai₁ ∧ shadowDimInfo true ai shadow = .ok ai₂ ∧
      (ai₁ = ai₂ ∧ Laid 0 0 owned ai₁ ∧ Laid 0 0 owned ai₂ ↔ shadow.Keeps owned ai) := by
  cases shadow with
  | none => exact ⟨ai, ai, rfl, rfl, by simp [Shadow.Keeps]⟩
  | normal lo hi =>
    obtain ⟨hlo, hhi⟩ := hshadow
    by_cases hzero : lo = 0 ∧ hi = 0
    · obtain ⟨rfl, rfl⟩ := hzero
      exact ⟨ai, ai, by simp [initShadowDim], by simp [shadowDimInfo], by simp [Shadow.Keeps]⟩
    · refine ⟨ai.widened lo hi, ai.widened lo hi, ?_, ?_, ?_⟩
      · simp [initShadowDim, hzero, not_lt.mpr hlo, not_lt.mpr hhi, ArrayInfo.widened]
      · simp [shadowDimInfo, hzero, not_lt.mpr hlo, not_lt.mpr hhi, ArrayInfo.widened]
      · rw [laid_widened_iff, and_self, eq_self_iff_true, true_and]
        rfl
  | full =>
    refine ⟨ai.whole (ai.parLower - ai.serLower) (ai.parUpper - ai.serLower),
      ai.whole ai.parLower ai.parUpper, rfl, rfl, ?_⟩
    constructor
    · rintro ⟨heq, hlaid, -⟩
      have hlower : ai.parLower - ai.serLower = ai.parLower := congrArg ArrayInfo.localLower heq
      exact ⟨by omega, (laid_whole_iff hin).mp hlaid⟩
    · rintro ⟨hzero, hspaced⟩
      have hlaid := (laid_whole_iff hin).mpr hspaced
      rw [hzero, sub_zero, sub_zero] at hlaid ⊢
      exact ⟨rfl, hlaid, hlaid⟩

/-! ## All dimensions -/

section Loop

variable {f : Bool → ArrayInfo d → Shadow → Except String (ArrayInfo d)}

/-- A loop that sets one dimension after the other from what it finds there. -/
theorem foldlM_setInfo {shadow : Fin k → Shadow} {result : Fin k → ArrayInfo d} {l : List (Fin k)}
    (hl : l.Nodup) {a : XmpArray k d n}
    (h : ∀ i ∈ l, f a.isAllocated (a.info i) (shadow i) = .ok (result i)) :
    ∃ a' : XmpArray k d n, l.foldlM (fun array i => do
        let ai ← f array.isAllocated (array.info i) (shadow i)
        .ok (array.setInfo i ai array.isAllocated)) a = (.ok a' : Except String (XmpArray k d n)) ∧
      (∀ i ∈ l, a'.info i = result i) ∧ ∀ i ∉ l, a'.info i = a.info i := by
  induction l generalizing a with
  | nil => exact ⟨a, rfl, by simp, fun _ _ => rfl⟩
  | cons i l ih =>
    rw [List.nodup_cons] at hl
    have hother : ∀ i' ≠ i, (a.setInfo i (result i) a.isAllocated).info i' = a.info i' := by
      intro i' hi
      rw [XmpArray.setInfo_info, Function.update_of_ne hi]
    have hrest : ∀ i' ∈ l, f (a.setInfo i (result i) a.isAllocated).isAllocated
        ((a.setInfo i (result i) a.isAllocated).info i') (shadow i') = .ok (result i') := by
      intro i' hi'
      rw [hother i' fun heq => hl.1 (heq ▸ hi')]
      exact h i' (List.mem_cons_of_mem i hi')
    obtain ⟨a', hrun, hdone, hkept⟩ := ih hl.2 hrest
    refine ⟨a', ?_, ?_, ?_⟩
    · rw [List.foldlM_cons, h i List.mem_cons_self]
      exact hrun
    · intro i' hi'
      rcases List.mem_cons.mp hi' with rfl | hi'
      · rw [hkept i' hl.1, XmpArray.setInfo_info, Function.update_self]
      · exact hdone i' hi'
    · intro i' hi'
      rw [List.mem_cons, not_or] at hi'
      rw [hkept i' hi'.2, hother i' hi'.1]

end Loop

/-! ## Elements in even steps -/

/-- Members for `n + 1` elements in steps of `parStride`. -/
structure EvenPart (owned : ℤ → Prop) (ai : ArrayInfo d) (n : ℕ) : Prop where
  parSize : ai.parSize = n + 1
  parUpper : ai.parUpper = ai.parLower + n * ai.parStride
  steps : Steps owned ai n

theorem evenPart_of_interval {owned : ℤ → Prop} {ai : ArrayInfo d} (hstride : ai.parStride = 1)
    (hle : ai.parLower ≤ ai.parUpper) (hsize : ai.parSize = ai.parUpper - ai.parLower + 1)
    (howned : ∀ g, owned g ↔ ai.parLower ≤ g ∧ g ≤ ai.parUpper) :
    EvenPart owned ai (ai.parUpper - ai.parLower).toNat :=
  ⟨by omega, by rw [hstride]; omega, steps_of_interval hstride hle howned⟩

theorem BlockPart.even {owned : ℤ → Prop} {ai : ArrayInfo d} {lower upper x w : ℤ}
    (h : BlockPart lower upper x w ai)
    (howned : ∀ g, owned g ↔ lower ≤ g ∧ g ≤ upper ∧ x ≤ g ∧ g < x + w) :
    EvenPart owned ai (ai.parUpper - ai.parLower).toNat := by
  refine evenPart_of_interval h.parStride h.le h.parSize fun g => ?_
  rw [howned, h.parLower, h.parUpper]
  omega

section Dealt

variable {b b' : XmpArray k d n} {i : Fin k} {t : Fin d} {j : Fin n} {sub w : ℤ} {P r : ℕ}

/-- Elements of the node with place `r`. -/
def DealtTo (b : XmpArray k d n) (i : Fin k) (t : Fin d) (sub w : ℤ) (P r : ℕ) (g : ℤ) : Prop :=
  (b.info i).serLower ≤ g ∧ g ≤ (b.info i).serUpper ∧
    owner w P (g + sub - (b.alignTemplate.info t).serLower) = r

theorem evenPart_of_cyclic (hr : r < P) (hlimit : InInt P)
    (hrep : CyclicReplicated P j 1 (b.alignTemplate.chunk t))
    (hsize : (b.alignTemplate.chunk t).nodesSize = P)
    (hrank : (b.alignTemplate.chunk t).nodesRank = r) (ho : b.alignTemplate.isOwner = true)
    (hlow : (b.alignTemplate.info t).serLower ≤ (b.info i).serLower + sub)
    (hok : alignInfo b i (some (t, sub)) = .ok b') (hsome : ∃ g, DealtTo b i t sub 1 P r g) :
    ∃ m, EvenPart (DealtTo b i t sub 1 P r) (b'.info i) m := by
  obtain ⟨hmanner, -, -, hstride⟩ := hrep
  rw [mul_one, toInt_of_inInt hlimit] at hstride
  rw [alignInfo] at hok
  split_ifs at hok
  rw [hmanner, if_pos rfl] at hok
  have hP : 0 < P := by omega
  obtain ⟨hpl, hst, hps, hpu⟩ := cyclicInfo_members hP hstride hsize hrank hlow
  obtain ⟨S, hS⟩ : ∃ S, S = (b.info i).serLower +
    (r - ((b.info i).serLower + sub - (b.alignTemplate.info t).serLower)) % P := ⟨_, rfl⟩
  obtain ⟨h1, h2, hset⟩ := @setOf_owner_eq_runs 1 (b.alignTemplate.info t).serLower sub
    (b.info i).serLower (b.info i).serUpper S P r one_pos hr (by rw [hS, Int.ediv_one]; ring)
  have howned : ∀ g, DealtTo b i t sub 1 P r g ↔
      g ∈ runs 1 (P * 1) S (b.info i).serLower (b.info i).serUpper := by
    intro g
    rw [← hset]
    rfl
  have hSU : S ≤ (b.info i).serUpper := by
    rw [← runs_nonempty_iff one_pos (by omega) (b.info i).lower_le_upper h1 h2]
    obtain ⟨g, hg⟩ := hsome
    exact ⟨g, (howned g).mp hg⟩
  rw [← hS] at hpl
  rw [hpl, Int.tdiv_eq_ediv_of_nonneg (by omega)] at hps hpu
  have hD := Int.ediv_nonneg (show 0 ≤ (b.info i).serUpper - S by omega) (Int.natCast_nonneg P)
  refine ⟨(((b.info i).serUpper - S) / P).toNat, ?_⟩
  rw [alignArrayWith_members ho hok]
  constructor
  · simp only [hps, Int.toNat_of_nonneg hD]
  · simp only [hpu, hpl, hst, Int.toNat_of_nonneg hD]
  · intro g
    simp only [howned, hpl, hst, runs, Set.mem_ofPred_eq, mul_one]
    have hP' : (0 : ℤ) < P := by omega
    have h0 := Int.emod_nonneg (g - S) hP'.ne'
    constructor
    · rintro ⟨hg0, hg1, hg⟩
      have hdvd : (P : ℤ) ∣ g - S := Int.dvd_of_emod_eq_zero (by omega)
      obtain ⟨e, he⟩ := hdvd
      have hSg : S ≤ g := start_le_of_mem_runs one_pos h2 ⟨hg0, hg1, by rw [mul_one]; exact hg⟩
      have he0 : 0 ≤ e := by
        by_contra hneg
        have := mul_le_mul_of_nonneg_left (show e ≤ -1 by omega) hP'.le
        omega
      have heD : e ≤ ((b.info i).serUpper - S) / P := by
        rw [Int.le_ediv_iff_mul_le hP', mul_comm]
        omega
      refine ⟨e.toNat, by omega, ?_⟩
      rw [Int.toNat_of_nonneg he0, mul_comm]
      omega
    · rintro ⟨e, he, hg⟩
      have heD : (e : ℤ) ≤ ((b.info i).serUpper - S) / P := by omega
      rw [Int.le_ediv_iff_mul_le hP'] at heD
      have he0 := mul_nonneg (Int.natCast_nonneg e) hP'.le
      have hmod : (g - S) % P = 0 := by
        rw [hg, add_sub_cancel_left]
        exact Int.mul_emod_left _ _
      omega

/-- In runs of two or more elements the last element of the interval is the only one that can be in
even steps from the first one on. -/
theorem eq_upper_of_steps {ai : ArrayInfo d} {owned : ℤ → Prop} {c L U S : ℤ} {m : ℕ} (hw : 1 < w)
    (hwc : w ≤ c) (hLU : L ≤ U) (h1 : L < S + w) (h2 : S + w ≤ L + c)
    (howned : ∀ g, owned g ↔ g ∈ runs w c S L U) (hlower : ai.parLower = max L S)
    (hstride : ai.parStride = c) (hsteps : Steps owned ai m)
    (hbad : m = 0 → L = S + w - 1 → L < U → U - S < c → False) {g : ℤ} (hg : owned g) : g = U := by
  have hfirst : max L S ∈ runs w c S L U := (howned _).mp (hlower ▸ hsteps.first)
  have hstep : ∀ x, x ∈ runs w c S L U → ∃ e : ℕ, e ≤ m ∧ x = max L S + e * c := by
    intro x hx
    rw [← howned, hsteps, hlower, hstride] at hx
    exact hx
  have hSU := start_le_of_mem_runs (by omega) h2 hfirst
  have hle := hfirst.2.1
  have hleast := (isLeast_runs (by omega) hwc hLU h1 h2 (by omega)).2 ((howned g).mp hg)
  have hgU := ((howned g).mp hg).2.1
  by_contra hne
  have hlt : max L S < U := by omega
  -- the run of the first element goes no further
  have hend : S + w ≤ max L S + 1 := by
    by_contra hin
    have hrun := @emod_lt_of_near w c S hwc (max L S + 1) (by omega) (by omega)
    obtain ⟨e, -, he⟩ := hstep (max L S + 1) ⟨by omega, by omega, hrun⟩
    rcases Nat.eq_zero_or_pos e with rfl | hpos
    · simp at he
    · have := mul_le_mul_of_nonneg_right (show (1 : ℤ) ≤ e by omega) (show 0 ≤ c by omega)
      omega
  have hLS : L = S + w - 1 := by omega
  -- and the next run would start between two steps
  have hnext : ¬ S + c ≤ U := by
    intro hin
    have hmod : (S + c - S) % c < w := by
      rw [add_sub_cancel_left, Int.emod_self]
      omega
    obtain ⟨e, -, he⟩ := hstep (S + c) ⟨by omega, hin, hmod⟩
    rcases Nat.eq_zero_or_pos e with rfl | hpos
    · simp at he
      omega
    · have := mul_le_mul_of_nonneg_right (show (1 : ℤ) ≤ e by omega) (show 0 ≤ c by omega)
      omega
  have hm : m = 0 := by
    by_contra hpos
    have hlast := ((howned _).mp hsteps.last).2.1
    have := mul_le_mul_of_nonneg_right (show (1 : ℤ) ≤ m by omega) (show 0 ≤ c by omega)
    rw [hlower, hstride] at hlast
    omega
  exact hbad hm hLS (by omega) (by omega)

theorem blockCyclicPart_iff (hw : 1 < w) (hr : r < P) (hround : InInt (P * w))
    (hrep : CyclicReplicated P j w (b.alignTemplate.chunk t))
    (hsize : (b.alignTemplate.chunk t).nodesSize = P)
    (hrank : (b.alignTemplate.chunk t).nodesRank = r) (ho : b.alignTemplate.isOwner = true)
    (hlow : (b.alignTemplate.info t).serLower ≤ (b.info i).serLower + sub)
    (hup : (b.info i).serUpper + sub ≤ (b.alignTemplate.info t).serUpper)
    (hok : alignInfo b i (some (t, sub)) = .ok b') :
    ((∃ g, DealtTo b i t sub w P r g) → (∀ g, DealtTo b i t sub w P r g → g = (b.info i).serUpper) →
      EvenPart (DealtTo b i t sub w P r) (b'.info i) 0) ∧
    ∀ m, Steps (DealtTo b i t sub w P r) (b'.info i) m →
      ((b'.info i).parSize = m + 1 ∨
        (b'.info i).parUpper = (b'.info i).parLower + m * (b'.info i).parStride) →
      ∀ g, DealtTo b i t sub w P r g → g = (b.info i).serUpper := by
  obtain ⟨hmanner, -, hwidth, hstride⟩ := hrep
  rw [toInt_of_inInt hround] at hstride
  rw [alignInfo] at hok
  split_ifs at hok
  rw [hmanner, if_neg (by omega)] at hok
  have hP : (0 : ℤ) < P := by omega
  have hwc : w ≤ P * w := le_mul_of_one_le_left (by omega) hP
  have hLU := (b.info i).lower_le_upper
  obtain ⟨S, hS⟩ : ∃ S, S = (((b.info i).serLower + sub - (b.alignTemplate.info t).serLower) / w +
    (r - ((b.info i).serLower + sub - (b.alignTemplate.info t).serLower) / w) % P) * w - sub +
      (b.alignTemplate.info t).serLower := ⟨_, rfl⟩
  obtain ⟨h1, h2, hset⟩ := @setOf_owner_eq_runs w (b.alignTemplate.info t).serLower sub
    (b.info i).serLower (b.info i).serUpper S P r (by omega) hr hS
  have hw0 : 0 < w := by omega
  have hP0 : 0 < P := by omega
  obtain ⟨hpl, -⟩ := blockCyclicInfo_members hw0 hP0 hwidth hstride hround hsize hrank hlow hS
  have hmembers :=
    blockCyclicInfo_members_of_le hw0 hP0 hwidth hstride hround hsize hrank hlow hup hS
  have howned : ∀ g, DealtTo b i t sub w P r g ↔
      g ∈ runs w (P * w) S (b.info i).serLower (b.info i).serUpper := by
    intro g
    rw [← hset]
    rfl
  have hst : (blockCyclicInfo (b.alignTemplate.info t) (b.info i) (b.alignTemplate.chunk t)
      sub).parStride = P * w := hstride
  rw [alignArrayWith_members ho hok]
  constructor
  · rintro ⟨g, hg⟩ honly
    have hSU : S ≤ (b.info i).serUpper := by
      rw [← runs_nonempty_iff (by omega) hwc hLU h1 h2]
      exact ⟨g, (howned g).mp hg⟩
    have hleast := isLeast_runs (by omega) hwc hLU h1 h2 hSU
    have hmax : max (b.info i).serLower S = (b.info i).serUpper := honly _ ((howned _).mpr hleast.1)
    have hdiv : ((b.info i).serUpper - S) / (P * w) = 0 :=
      Int.ediv_eq_zero_of_lt (by omega) (by omega)
    obtain ⟨-, hpu, hps⟩ := hmembers hSU
    rw [hdiv, hmax, if_neg (by omega)] at hpu hps
    rw [hmax] at hpl
    refine ⟨?_, ?_, fun g => ?_⟩
    · simp only [hps]
      push_cast
      omega
    · simp [hpu, hpl]
    · constructor
      · intro hg
        exact ⟨0, le_rfl, by simp [hpl, honly g hg]⟩
      · rintro ⟨e, he, hg⟩
        obtain rfl : e = 0 := by omega
        have hmem := (howned _).mpr hleast.1
        rw [hmax] at hmem
        rw [hg]
        simpa only [hpl, CharP.cast_eq_zero, zero_mul, add_zero] using hmem
  · intro m hsteps hor g hg
    refine eq_upper_of_steps hw hwc hLU h1 h2 howned hpl hst hsteps ?_ hg
    intro hm hLS hlt hshort
    have hdiv : ((b.info i).serUpper - S) / (P * w) = 0 :=
      Int.ediv_eq_zero_of_lt (by omega) hshort
    obtain ⟨-, hpu, hps⟩ := hmembers (by omega)
    have hmax : max (b.info i).serLower S = (b.info i).serLower := by omega
    rw [hdiv, hmax] at hpu hps
    rw [hmax] at hpl
    simp only [hpu, hps, hpl, hm, CharP.cast_eq_zero, zero_mul, zero_add, add_zero, one_mul] at hor
    split_ifs at hor <;> omega

end Dealt

/-! ## Dimensions of a built array -/

/-- The local bounds that every alignment but that with a duplicated dimension leaves. -/
structure Compact (ai : ArrayInfo d) : Prop where
  localLower : ai.localLower = 0
  localUpper : ai.localUpper = ai.parSize - 1
  localStride : ai.localStride = 1
  allocSize : ai.allocSize = ai.parSize

theorem Compact.laid_iff {owned : ℤ → Prop} {ai : ArrayInfo d} (h : Compact ai) {lo hi : ℤ}
    (hlo : 0 ≤ lo) (hhi : 0 ≤ hi) :
    Laid lo hi owned ai ↔ ∃ m : ℕ, ai.parSize = m + 1 ∧ Steps owned ai m := by
  obtain ⟨h1, h2, h3, h4⟩ := h
  constructor
  · intro ⟨_, _, m, hm, hsteps⟩
    rw [h1, h2, h3] at hm
    exact ⟨m, by omega, hsteps⟩
  · intro ⟨m, hm, hsteps⟩
    exact ⟨by omega, by omega, m, by rw [h1, h2, h3]; omega, hsteps⟩

theorem compact_contiguousInfo {ai : ArrayInfo d} {chunk : TemplateChunk n} {sub : ℤ}
    (h : ContiguousMeets (ai.serLower + sub) (ai.serUpper + sub) chunk) :
    Compact (contiguousInfo ai chunk sub).1 := by
  obtain ⟨h₁, h₂⟩ := h
  unfold contiguousInfo
  dsimp only
  rw [if_neg h₁, if_neg (not_lt.mpr h₂)]
  exact ⟨rfl, rfl, rfl, rfl⟩

namespace ArrayDecl

variable (decl : ArrayDecl k d n)

def Duplicated (i : Fin k) : Prop :=
  ∃ t sub, decl.target i = some (t, sub) ∧ (decl.dist t).2 = .duplication

/-- The node owns an element and, when the elements are dealt in blocks of two or more, only the
last one of the dimension. -/
def Evenly (c : decl.Coord) (i : Fin k) : Prop :=
  (∃ g, decl.Owns c i g) ∧ ∀ t sub w, decl.target i = some (t, sub) →
    (decl.dist t).2 = .blockCyclic w → 1 < w → ∀ g, decl.Owns c i g → g = decl.upper i

namespace Built

variable {decl} {c : decl.Coord} {a : XmpArray k d n} {i : Fin k}

theorem compact (h : decl.Built c a) (ha : a.isAllocated = true) (hdup : ¬ decl.Duplicated i) :
    Compact (a.info i) := by
  obtain ⟨howner, b, b', hb, hl, hu, hok, hinfo⟩ := h.info_written i
  have ho : b.alignTemplate.isOwner = true := hb ▸ howner ha
  have hmeets := (h.isAllocated_iff.mp ha).2 i
  rw [hinfo]
  cases htar : decl.target i with
  | none =>
    rw [htar] at hok
    cases hok
    rw [alignArrayNotAligned, XmpArray.setInfo_info, Function.update_self]
    exact ⟨rfl, by simp only [ArrayInfo.serSize]; ring, rfl, rfl⟩
  | some target =>
    obtain ⟨t, sub⟩ := target
    rw [htar, ← hb, ← hl, ← hu] at hmeets
    rw [htar, alignInfo] at hok
    split_ifs at hok
    have hcont (hm : (b.alignTemplate.chunk t).distManner = .block ∨
        (b.alignTemplate.chunk t).distManner = .gblock) :
        Compact (contiguousInfo (b.info i) (b.alignTemplate.chunk t) sub).1 :=
      compact_contiguousInfo (hmeets hm)
    split at hok
    · next hm =>
      obtain ⟨-, -, -, -, -, -, hrep⟩ := (h.described i).aligned t sub htar
      rw [← hb] at hrep
      refine absurd ⟨t, sub, htar, ?_⟩ hdup
      cases hfmt : (decl.dist t).2 with
      | duplication => rfl
      | block =>
        rw [hfmt] at hrep
        cases hm.symm.trans hrep.1
      | cyclic =>
        rw [hfmt] at hrep
        cases hm.symm.trans hrep.1
      | blockCyclic w =>
        rw [hfmt] at hrep
        have hmanner := hm.symm.trans hrep.1
        split_ifs at hmanner
      | gblock m =>
        rw [hfmt] at hrep
        cases m with
        | none => exact hrep.elim
        | some m => cases hm.symm.trans hrep.1
    · next hm =>
      rw [alignArrayWith_members ho hok]
      obtain ⟨h1, h2, h3, h4⟩ := hcont (Or.inl hm)
      exact ⟨h1, h2, h3, h4⟩
    · rw [alignArrayWith_members ho hok]
      exact ⟨rfl, rfl, rfl, rfl⟩
    · rw [alignArrayWith_members ho hok]
      exact ⟨rfl, rfl, rfl, rfl⟩
    · next hm =>
      rw [alignArrayWith_members ho hok]
      obtain ⟨h1, h2, h3, h4⟩ := hcont (Or.inr hm)
      exact ⟨h1, h2, h3, h4⟩

/-- The call that aligned a dimension whose elements are dealt in blocks of `w`. -/
theorem dealt (h : decl.Built c a) (ha : a.isAllocated = true) {t : Fin d} {sub w : ℤ}
    (htar : decl.target i = some (t, sub))
    (hfmt : (decl.dist t).2 = .cyclic ∧ w = 1 ∨ (decl.dist t).2 = .blockCyclic w) :
    ∃ b b' : XmpArray k d n,
      CyclicReplicated (decl.nodesInfo c t).size (decl.dist t).1 w (b.alignTemplate.chunk t) ∧
      (b.alignTemplate.chunk t).nodesSize = (decl.nodesInfo c t).size ∧
      (b.alignTemplate.chunk t).nodesRank = (decl.nodesInfo c t).rank ∧
      b.alignTemplate.isOwner = true ∧
      (b.alignTemplate.info t).serLower ≤ (b.info i).serLower + sub ∧
      (b.info i).serUpper + sub ≤ (b.alignTemplate.info t).serUpper ∧
      alignInfo b i (some (t, sub)) = .ok b' ∧ a.info i = b'.info i ∧
      (b.info i).serUpper = decl.upper i ∧
      decl.Owns c i = DealtTo b i t sub w (decl.nodesInfo c t).size (decl.nodesInfo c t).rank := by
  obtain ⟨-, -, -, hti, hlow, hup, hrep⟩ := (h.described i).aligned t sub htar
  obtain ⟨howner, b, b', hb, hl, hu, hok, hinfo⟩ := h.info_written i
  have hdup : (decl.dist t).2 ≠ .duplication := by
    intro hdup
    rcases hfmt with ⟨hfmt, -⟩ | hfmt
    · cases hfmt.symm.trans hdup
    · cases hfmt.symm.trans hdup
  have hni := h.nodesInfo_eq hdup
  rw [← hb] at hti hrep hni
  refine ⟨b, b', ?_, ?_, ?_, hb ▸ howner ha, by rw [hti, hl]; exact hlow,
    by rw [hti, hu]; exact hup, htar ▸ hok, hinfo, hu, ?_⟩
  · rcases hfmt with ⟨hfmt, rfl⟩ | hfmt
    · rw [hfmt] at hrep
      exact hrep
    · rw [hfmt] at hrep
      exact hrep
  · rw [TemplateChunk.nodesSize, hni]
    rfl
  · rw [TemplateChunk.nodesRank, hni]
    rfl
  · funext g
    simp only [Owns, DealtTo, htar, TargetOwned, hl, hu, hti]
    rcases hfmt with ⟨hfmt, rfl⟩ | hfmt
    · rw [hfmt]
      rfl
    · rw [hfmt]
      rfl

/-- Except for blocks of two or more elements, the elements of a node are in even steps. -/
theorem evenPart (h : decl.Built c a) (ha : a.isAllocated = true) (heven : decl.Evenly c i) :
    ∃ m, EvenPart (decl.Owns c i) (a.info i) m := by
  obtain ⟨hsome, honly⟩ := heven
  obtain ⟨howner, b, b', hb, hl, hu, hok, hinfo⟩ := h.info_written i
  have ho : b.alignTemplate.isOwner = true := hb ▸ howner ha
  have hle := decl.lower_le_upper i
  cases htar : decl.target i with
  | none =>
    rw [htar] at hok
    cases hok
    rw [hinfo, alignArrayNotAligned, XmpArray.setInfo_info, Function.update_self]
    refine ⟨_, evenPart_of_interval rfl (by simpa [hl, hu] using hle) ?_ fun g => ?_⟩
    · simp only [ArrayInfo.serSize]
    · simp [Owns, htar, TargetOwned, hl, hu]
  | some target =>
    obtain ⟨t, sub⟩ := target
    have hmeets := (h.isAllocated_iff.mp ha).2 i
    obtain ⟨-, -, -, hti, hlow, hup, hrep⟩ := (h.described i).aligned t sub htar
    rw [htar, ← hl, ← hu] at hmeets
    rw [← hb] at hmeets hrep
    cases hfmt : (decl.dist t).2 with
    | duplication =>
      rw [hfmt] at hrep
      rw [htar, alignInfo] at hok
      split_ifs at hok
      rw [show (b.alignTemplate.chunk t).distManner = .duplication from hrep] at hok
      rw [hinfo, alignArrayWith_members ho hok]
      refine ⟨_, evenPart_of_interval rfl (by simpa [duplicationInfo, hl, hu] using hle) ?_
        fun g => ?_⟩
      · simp only [duplicationInfo, ArrayInfo.serSize]
      · simp [Owns, htar, TargetOwned, hfmt, Owned, duplicationInfo, hl, hu]
    | block =>
      refine ⟨_, (h.blockPart ha htar hfmt).even fun g => ?_⟩
      simp only [Owns, htar, TargetOwned, hfmt, owned_block_iff, blockStart]
      constructor
      · rintro ⟨h0, h1, h2, h3⟩
        exact ⟨h0, h1, by linarith, by linarith⟩
      · rintro ⟨h0, h1, h2, h3⟩
        exact ⟨h0, h1, by linarith, by linarith⟩
    | gblock m =>
      rw [hfmt] at hrep
      cases m with
      | none => exact hrep.elim
      | some m =>
        rw [htar, alignInfo] at hok
        split_ifs at hok
        rw [hrep.1] at hok
        obtain ⟨g, hg0, hg1, hg⟩ := hsome
        simp only [htar, TargetOwned, hfmt, Owned, rsumArray] at hg
        obtain ⟨hlower, hupper⟩ := h.gblock_bounds hfmt (by omega) (by omega)
        rw [← hb] at hlower hupper
        rw [← hu] at hup
        have hpart := blockPart_contiguousInfo hlower hupper hup (by omega)
          (hmeets (Or.inr hrep.1))
        rw [hl, hu] at hpart
        rw [hinfo, alignArrayWith_members ho hok]
        refine ⟨_, BlockPart.even ⟨hpart.parLower, hpart.parUpper, hpart.le, hpart.parStride,
          hpart.parSize, hpart.localLower, hpart.localUpper, hpart.localStride, hpart.allocSize⟩
          fun g => ?_⟩
        simp only [Owns, htar, TargetOwned, hfmt, Owned, rsumArray]
        omega
    | cyclic =>
      obtain ⟨b, b', hrep, hsize, hrank, ho, hlow, -, hok, hinfo, -, howns⟩ :=
        h.dealt ha htar (Or.inl ⟨hfmt, rfl⟩)
      rw [hinfo, howns]
      exact evenPart_of_cyclic (decl.nodesInfo c t).rank.isLt (decl.nodesInfo c t).size_inInt hrep
        hsize hrank ho hlow hok
        (howns ▸ hsome)
    | blockCyclic w =>
      obtain ⟨b, b', hrep, hsize, hrank, ho, hlow, hup, hok, hinfo, hupper, howns⟩ :=
        h.dealt ha htar (Or.inr hfmt)
      have hw := decl.width_pos t w hfmt
      have hround := decl.stride_inInt t
      rw [hfmt] at hround
      have hlast := honly t sub w htar hfmt
      rw [howns] at hsome hlast
      rw [hinfo, howns]
      rcases (show 1 ≤ w from hw).eq_or_lt with rfl | hw
      · exact evenPart_of_cyclic (decl.nodesInfo c t).rank.isLt (decl.nodesInfo c t).size_inInt hrep
          hsize hrank ho hlow hok hsome
      · rw [← hupper] at hlast
        exact ⟨0, (blockCyclicPart_iff hw (decl.nodesInfo c t).rank.isLt hround hrep hsize hrank ho
          hlow hup hok).1 hsome (hlast hw)⟩

/-- A node without elements, or with a part of a block, is described by no steps. -/
theorem evenly_of_steps (h : decl.Built c a) (ha : a.isAllocated = true) {m : ℕ}
    (hsteps : Steps (decl.Owns c i) (a.info i) m) (hor : (a.info i).parSize = m + 1 ∨
      (a.info i).parUpper = (a.info i).parLower + m * (a.info i).parStride) : decl.Evenly c i := by
  refine ⟨⟨_, hsteps.first⟩, fun t sub w htar hfmt hw => ?_⟩
  obtain ⟨b, b', hrep, hsize, hrank, ho, hlow, hup, hok, hinfo, hupper, howns⟩ :=
    h.dealt ha htar (Or.inr hfmt)
  rw [hinfo, howns] at hsteps
  rw [hinfo] at hor
  rw [howns, ← hupper]
  have hround := decl.stride_inInt t
  rw [hfmt] at hround
  exact (blockCyclicPart_iff hw (decl.nodesInfo c t).rank.isLt hround hrep hsize hrank ho hlow
    hup hok).2 m
    hsteps hor

theorem spaced_iff (h : decl.Built c a) (ha : a.isAllocated = true) :
    Spaced (decl.Owns c i) (a.info i) ↔ decl.Evenly c i := by
  constructor
  · intro ⟨m, hm, hsteps⟩
    exact h.evenly_of_steps ha hsteps (Or.inr hm)
  · intro heven
    obtain ⟨m, hm⟩ := h.evenPart ha heven
    exact ⟨m, hm.parUpper, hm.steps⟩

theorem duplicated_info (h : decl.Built c a) (ha : a.isAllocated = true)
    (hdup : decl.Duplicated i) :
    (a.info i).localLower = decl.lower i ∧ (a.info i).localUpper = decl.upper i ∧
      (a.info i).localStride = 1 ∧ (a.info i).allocSize = decl.upper i - decl.lower i + 1 ∧
      (a.info i).parSize = decl.upper i - decl.lower i + 1 := by
  obtain ⟨t, sub, htar, hfmt⟩ := hdup
  obtain ⟨howner, b, b', hb, hl, hu, hok, hinfo⟩ := h.info_written i
  obtain ⟨-, -, -, -, -, -, hrep⟩ := (h.described i).aligned t sub htar
  rw [hfmt, ← hb] at hrep
  rw [htar, alignInfo] at hok
  split_ifs at hok
  rw [show (b.alignTemplate.chunk t).distManner = .duplication from hrep] at hok
  rw [hinfo, alignArrayWith_members (hb ▸ howner ha) hok, ← hl, ← hu]
  exact ⟨rfl, rfl, rfl, rfl, rfl⟩

theorem laid_iff (h : decl.Built c a) (ha : a.isAllocated = true) {lo hi : ℤ} (hlo : 0 ≤ lo)
    (hhi : 0 ≤ hi) : Laid lo hi (decl.Owns c i) (a.info i) ↔
      decl.Evenly c i ∧ (decl.Duplicated i → -lo ≤ decl.lower i ∧ decl.lower i ≤ hi) := by
  by_cases hdup : decl.Duplicated i
  · obtain ⟨h1, h2, h3, h4, h5⟩ := h.duplicated_info ha hdup
    constructor
    · intro ⟨hlower, hupper, m, hm, hsteps⟩
      rw [h1, h2, h3] at hm
      exact ⟨h.evenly_of_steps ha hsteps (Or.inl (by omega)), fun _ => by omega⟩
    · intro ⟨heven, hwide⟩
      obtain ⟨m, hm⟩ := h.evenPart ha heven
      have hsize := hm.parSize
      have hfit := hwide hdup
      exact ⟨by omega, by omega, m, by rw [h1, h2, h3]; omega, hm.steps⟩
  · rw [(h.compact ha hdup).laid_iff hlo hhi]
    simp only [hdup, false_imp_iff, and_true]
    constructor
    · intro ⟨m, hm, hsteps⟩
      exact h.evenly_of_steps ha hsteps (Or.inl hm)
    · intro heven
      obtain ⟨m, hm⟩ := h.evenPart ha heven
      exact ⟨m, hm.parSize, hm.steps⟩

end Built

/-- When the shadow of dimension `i` keeps the layout consistent. -/
def ShadowFits (c : decl.Coord) (i : Fin k) : Shadow → Prop
  | .none => decl.Evenly c i ∧ (decl.Duplicated i → decl.lower i = 0)
  | .normal lo hi => decl.Evenly c i ∧ (decl.Duplicated i → -lo ≤ decl.lower i ∧ decl.lower i ≤ hi)
  | .full => decl.Evenly c i ∧ decl.lower i = 0

theorem Built.keeps_iff {decl : ArrayDecl k d n} {c : decl.Coord} {a : XmpArray k d n}
    (h : decl.Built c a) (ha : a.isAllocated = true) {i : Fin k} {shadow : Shadow}
    (hshadow : shadow.Nonneg) :
    shadow.Keeps (decl.Owns c i) (a.info i) ↔ decl.ShadowFits c i shadow := by
  cases shadow with
  | none =>
    rw [Shadow.Keeps, h.laid_iff ha le_rfl le_rfl, ShadowFits, neg_zero]
    exact and_congr_right fun _ => imp_congr_right fun _ => by omega
  | normal lo hi => exact h.laid_iff ha hshadow.1 hshadow.2
  | full => rw [Shadow.Keeps, h.spaced_iff ha, (h.described i).lower, ShadowFits, and_comm]

end ArrayDecl

/-- After either function a dimension is consistent, and both leave the same, exactly when the
shadow fits it. -/
theorem initShadow_consistent_iff {decl : ArrayDecl k d n} {c : decl.Coord} {a : XmpArray k d n}
    (h : decl.Built c a) (ha : a.isAllocated = true) {shadow : Fin k → Shadow}
    (hshadow : ∀ i, (shadow i).Nonneg) :
    ∃ a₁ a₂ : XmpArray k d n, initShadow a shadow = .ok a₁ ∧ initShadowDims a shadow = .ok a₂ ∧
      ∀ i, (a₁.info i = a₂.info i ∧ Laid 0 0 (decl.Owns c i) (a₁.info i) ∧
        Laid 0 0 (decl.Owns c i) (a₂.info i) ↔ decl.ShadowFits c i (shadow i)) := by
  have hin : ∀ i g, decl.Owns c i g → (a.info i).serLower ≤ g ∧ g ≤ (a.info i).serUpper := by
    intro i g hg
    rw [(h.described i).lower, (h.described i).upper]
    exact ⟨hg.1, hg.2.1⟩
  choose ai₁ ai₂ hai₁ hai₂ hiff using fun i =>
    @shadowDimInfo_iff d (decl.Owns c i) (a.info i) (shadow i) (hshadow i) (hin i)
  obtain ⟨a₁, hrun₁, hdone₁, -⟩ := @foldlM_setInfo k d n initShadowDim shadow ai₁ _
    (List.nodup_finRange k) a fun i _ => ha ▸ hai₁ i
  obtain ⟨a₂, hrun₂, hdone₂, -⟩ := @foldlM_setInfo k d n shadowDimInfo shadow ai₂ _
    (List.nodup_finRange k) a fun i _ => ha ▸ hai₂ i
  refine ⟨a₁, a₂, hrun₁, hrun₂, fun i => ?_⟩
  rw [hdone₁ i (List.mem_finRange i), hdone₂ i (List.mem_finRange i), hiff i,
    h.keeps_iff ha (hshadow i)]

/-- The array `a(1:4)`, aligned with `t(1:4)` in two blocks. -/
def oneBasedDecl : ArrayDecl 1 1 1 :=
  .line 2 (.fixed 1 4 (by decide)) .block 1 4 0 two_nodes_lt trivial DistFormat.block_width_pos
    (by norm_num)

def oneBasedNode : oneBasedDecl.Coord := fun _ => (1 : Fin 2)

/-- Its descriptor on the second node. -/
def oneBasedArray : XmpArray 1 1 1 := oneBasedDecl.builtLine oneBasedNode

theorem oneBasedArray_built : oneBasedDecl.Built oneBasedNode oneBasedArray :=
  ArrayDecl.built_of_build rfl

/-- One more element on each side. -/
theorem initShadow_consistent_normal : ∃ a₁ a₂ : XmpArray 1 1 1,
    initShadow oneBasedArray (fun _ => .normal 1 1) = .ok a₁ ∧
      initShadowDims oneBasedArray (fun _ => .normal 1 1) = .ok a₂ ∧ a₁.info 0 = a₂.info 0 ∧
      Laid 0 0 (oneBasedDecl.Owns oneBasedNode 0) (a₂.info 0) := by
  obtain ⟨a₁, a₂, h₁, h₂, hiff⟩ := @initShadow_consistent_iff 1 1 1 oneBasedDecl oneBasedNode
    oneBasedArray oneBasedArray_built rfl (fun _ => .normal 1 1) fun _ => ⟨by decide, by decide⟩
  have hfits : oneBasedDecl.ShadowFits oneBasedNode 0 (.normal 1 1) := by
    have howns : oneBasedDecl.Owns oneBasedNode 0 3 := by decide
    refine ⟨⟨⟨3, howns⟩, fun t sub w _ hfmt => ?_⟩, fun _ => by decide⟩
    cases hfmt
  obtain ⟨heq, -, hlaid⟩ := (hiff 0).mpr hfits
  exact ⟨a₁, a₂, h₁, h₂, heq, hlaid⟩

/-- With a full shadow the second node puts its last element after the end of its memory when the
dimension is set by itself. -/
theorem initShadow_full_one : oneBasedDecl.Built oneBasedNode oneBasedArray ∧
    oneBasedArray.isAllocated = true ∧ ∃ a₁ a₂ : XmpArray 1 1 1,
      initShadow oneBasedArray (fun _ => .full) = .ok a₁ ∧
      initShadowDims oneBasedArray (fun _ => .full) = .ok a₂ ∧ a₁.info 0 ≠ a₂.info 0 ∧
      ¬ Laid 0 0 (oneBasedDecl.Owns oneBasedNode 0) (a₂.info 0) := by
  refine ⟨oneBasedArray_built, rfl, _, _, rfl, rfl, fun heq => ?_, fun hlaid => ?_⟩
  · have hlower := congrArg ArrayInfo.localLower heq
    revert hlower
    decide
  · have hupper := hlaid.upper
    revert hupper
    decide

end OmniCompiler.Xmp
