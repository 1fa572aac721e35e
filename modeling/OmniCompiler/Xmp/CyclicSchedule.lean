import OmniCompiler.Xmp.BlockSchedule

/-!
# Loops over cyclic dimensions

The scheduler finds the first and the last iteration of a rank but returns the local
step one, so a rank runs every index it owns between the two.
-/
namespace OmniCompiler.Xmp

open MachineInt ForLoop BlockCyclic Progression

variable {d n : ℕ}

/-- Every rank runs the iterations it owns, and all ranks together run each iteration in
the template, both without repetition. -/
def ExecutesOnce (ti : TemplateInfo) (ni : NodesInfo) (fmt : DistFormat) (ser : Iter)
    (tr : Fin ni.size → Template d n) (i : Fin d) : Prop :=
  ∃ runs : Fin ni.size → List ℤ, (∀ r, executed ser (tr r) i = .ok (runs r)) ∧
    (∀ r, (runs r).Perm (ser.values.filter fun g =>
      ti.Contains g ∧ Owned ti ⟨ni.size, r, ni.size_lt⟩ fmt g)) ∧
    ((List.finRange ni.size).flatMap runs).Perm (ser.values.filter fun g => ti.Contains g)

/-- The indices of `S` between the first and the last one that the loop reaches. -/
def Iter.Between (ser : Iter) (S : Set ℤ) (x : ℤ) : Prop :=
  x ∈ S ∧ (∃ a ∈ ser.fromInit S, a ≤ x) ∧ ∃ b ∈ ser.toCond S, x ≤ b

theorem cutWidth1_cyclic {chunk : TemplateChunk n} {norm : Iter} {lb r P : ℤ} (hr0 : 0 ≤ r)
    (hr1 : r < P) (hP' : InInt P) (hfit : norm.CutFits chunk.parLower chunk.parUpper)
    (hstride : chunk.parStride = P) (hlower : chunk.parLower = lb + r)
    (hle : chunk.parLower ≤ chunk.parUpper) (hd : P ∣ chunk.parUpper - chunk.parLower) :
    ∃ par, cutWidth1 chunk (fun i => (i - lb).tdiv P) (fun _ _ => 1) norm = .ok par ∧
      CutRuns (fun l => lb + r + P * l)
        (norm.Between (strided chunk.parLower chunk.parUpper P)) par := by
  have hP : 0 < P := by omega
  obtain ⟨hnone, hsome⟩ := width1Cut_spec hP hP' hle hd hfit
  refine ⟨_, by rw [cutWidth1, hstride, schedLoopTemplateWidth1_eq hP]; rfl, ?_⟩
  cases hcut : width1Cut norm chunk.parLower chunk.parUpper P with
  | none =>
    rintro x ⟨-, ⟨a, ha, -⟩, b, hb, -⟩
    rcases hnone hcut with h | h
    · exact (h ▸ ha : a ∈ (∅ : Set ℤ))
    · exact (h ▸ hb : b ∈ (∅ : Set ℤ))
  | some par =>
    have h := hsome par hcut
    -- local positions of the members of the chunk
    have hpos : ∀ x ∈ strided chunk.parLower chunk.parUpper P,
        x = lb + r + P * (x - lb).tdiv P := by
      rintro x ⟨hx, -, k, hk⟩
      rw [Int.tdiv_eq_ediv_of_nonneg (by omega),
        show x - lb = r + P * k by linarith, Int.add_mul_ediv_left _ _ hP.ne',
        Int.ediv_eq_zero_of_lt hr0 hr1]
      linarith
    have hi := hpos _ h.init.1.1
    have hc := hpos _ h.cond.1.1
    refine ⟨one_pos, one_dvd _, fun a _ b _ hab => ?_, fun x => ?_⟩
    · have := mul_lt_mul_of_pos_left hab hP
      dsimp only
      linarith
    · have hleft : (∃ a ∈ norm.fromInit (strided chunk.parLower chunk.parUpper P), a ≤ x) ↔
          par.init ≤ x := by
        refine ⟨?_, fun hx => ⟨_, h.init.1, hx⟩⟩
        rintro ⟨a, ha, hax⟩
        exact (h.init.2 ha).trans hax
      have hright : (∃ b ∈ norm.toCond (strided chunk.parLower chunk.parUpper P), x ≤ b) ↔
          x ≤ par.cond := by
        refine ⟨?_, fun hx => ⟨_, h.cond.1, hx⟩⟩
        rintro ⟨b, hb, hxb⟩
        exact hxb.trans (h.cond.2 hb)
      rw [Iter.Between, hleft, hright]
      constructor
      · rintro ⟨l, ⟨h1, h2, -⟩, rfl⟩
        dsimp only at h1 h2 ⊢
        have hl1 := mul_le_mul_of_nonneg_left h1 hP.le
        have hl2 := mul_le_mul_of_nonneg_left h2 hP.le
        obtain ⟨⟨hlo, -⟩, -⟩ := h.init.1
        obtain ⟨⟨-, hup, -⟩, -⟩ := h.cond.1
        exact ⟨⟨by omega, by omega, l, by rw [hlower]; ring⟩, by omega, by omega⟩
      · rintro ⟨hx, h1, h2⟩
        have hxp := hpos x hx
        refine ⟨(x - lb).tdiv P, ⟨?_, ?_, one_dvd _⟩, hxp.symm⟩
        · refine le_of_mul_le_mul_left ?_ hP
          linarith
        · refine le_of_mul_le_mul_left ?_ hP
          linarith

theorem tripletSet_width_one {lower upper stride cut : ℤ} (hs : 0 < stride) (hcut : upper ≤ cut) :
    tripletSet lower upper stride 1 cut = strided lower upper stride := by
  ext x
  constructor
  · rintro ⟨k, j, h0, h1, h2, h3, rfl, -⟩
    obtain rfl : j = 0 := by omega
    have : 0 ≤ k * stride := by positivity
    exact ⟨by omega, by omega, k, by ring⟩
  · rintro ⟨h0, h1, k, hk⟩
    have hk0 : 0 ≤ k := nonneg_of_mul_nonneg_right (by omega) hs
    exact ⟨k, 0, hk0, le_rfl, one_pos, by linarith, by linarith, by omega⟩

theorem CyclicChunk.executed_cyclic {ti : TemplateInfo} {ni : NodesInfo} {t : Template d n}
    {i : Fin d} (h : CyclicChunk 1 ti ni t i) {ser : Iter} (hs : ser.step ≠ 0)
    (hfit : t.isOwner = true → ser.FitsChunk (t.chunk i)) :
    ∃ run, executed ser t i = .ok run ∧ run.Nodup ∧ ∀ x, x ∈ run ↔ x ∈ chunkSet t i ∧
      ∃ a ∈ ser.scheduled, ∃ b ∈ ser.scheduled, a ∈ chunkSet t i ∧ b ∈ chunkSet t i ∧
        a ≤ x ∧ x ≤ b := by
  have hP := ni.size_pos
  have hr1 : (ni.rank : ℤ) < ni.size := by exact_mod_cast ni.rank.isLt
  have hl2g : (l2g · t i) = fun l => ti.serLower + ni.rank + ni.size * l := by
    funext l
    simp [l2g, h.manner, h.info, TemplateChunk.nodesSize, TemplateChunk.nodesRank, h.nodesInfo]
  have hsize : (t.chunk i).nodesSize = ni.size := by
    rw [TemplateChunk.nodesSize, h.nodesInfo, Option.elim_some]
  simp only [executed, schedLoopTemplate, h.manner, if_true, schedLoopTemplateCyclic, hl2g, h.info,
    hsize]
  by_cases ho : t.isOwner = true
  · obtain ⟨hlower, m, hm0, hupper, hm⟩ := h.bounds ho
    have hm1 := (hm m).mp le_rfl
    have hN := ti.serUpper_eq
    have hmP : 0 ≤ m * ni.size := by positivity
    rw [mul_one] at hlower hupper hm1
    rw [mul_one] at hupper
    have hset : chunkSet t i = strided (t.chunk i).parLower (t.chunk i).parUpper ni.size := by
      rw [chunkSet, if_pos ho, h.stride_eq ni.stride_one, h.width, h.info, mul_one]
      exact tripletSet_width_one hP (by omega)
    obtain ⟨norm, it, -, hspan, hrun, hdir, hmem⟩ := schedLoop_exec ho hs (hfit ho)
      fun norm _ _ hcf => cutWidth1_cyclic (by positivity) hr1 ni.size_inInt hcf
        (by rw [h.stride_eq ni.stride_one, mul_one]) hlower (by omega)
        ⟨m, by rw [hupper, hlower]; ring⟩
    rw [hrun, hset]
    refine ⟨_, rfl, hdir.nodup, fun x => ?_⟩
    rw [hmem, Iter.Between]
    refine and_congr_right fun _ => ?_
    simp only [← hspan]
    constructor
    · rintro ⟨⟨a, ⟨ha, ha1, ha2⟩, hax⟩, b, ⟨hb, hb1, hb2⟩, hxb⟩
      exact ⟨a, ⟨ha1, by omega, ha2⟩, b, ⟨by omega, hb1, hb2⟩, ha, hb, hax, hxb⟩
    · rintro ⟨a, ⟨ha1, ha2, ha3⟩, b, ⟨hb1, hb2, hb3⟩, ha, hb, hax, hxb⟩
      exact ⟨⟨a, ⟨ha, ha1, ha3⟩, hax⟩, b, ⟨hb, hb2, hb3⟩, hxb⟩
  · rw [schedLoop_not_owner ho]
    exact ⟨[], rfl, List.nodup_nil, fun x => by simp [chunkSet, ho]⟩

section

variable {t : Template d n} {i : Fin d} {nodes : Nodes n} {j : Fin n}
variable {tr : Fin (nodes.info j).size → Template d n}

theorem mem_chunkSet_cyclic (h : Distributed t i nodes j .cyclic tr)
    (r : Fin (nodes.info j).size) (g : ℤ) :
    g ∈ chunkSet (tr r) i ↔ (t.info i).Contains g ∧
      (g - (t.info i).serLower) % (nodes.info j).size = (r : ℕ) := by
  rw [(h.cyclic r).mem_chunkSet one_pos (nodes.info j).stride_one, owner, Int.ediv_one]

theorem dvd_sub_of_mem_chunkSet (h : Distributed t i nodes j .cyclic tr)
    {r : Fin (nodes.info j).size} {a b : ℤ} (ha : a ∈ chunkSet (tr r) i)
    (hb : b ∈ chunkSet (tr r) i) : ((nodes.info j).size : ℤ) ∣ b - a := by
  have ha' := ((mem_chunkSet_cyclic h r a).mp ha).2
  have hb' := ((mem_chunkSet_cyclic h r b).mp hb).2
  have hdvd := (Int.ModEq.dvd (ha'.trans hb'.symm : _ ≡ _ [ZMOD _]))
  rwa [sub_sub_sub_cancel_right] at hdvd

/-- No rank owns two iterations in the template. -/
def Iter.Sparse (ser : Iter) (ti : TemplateInfo) (P : ℕ) : Prop :=
  ∀ g ∈ ser.values, ∀ g' ∈ ser.values, ti.Contains g → ti.Contains g' → (P : ℤ) ∣ g' - g → g' = g

theorem Iter.dvd_sub_of_mem_values {ser : Iter} (hs : ser.step ≠ 0) {a x : ℤ}
    (ha : a ∈ ser.values) (hx : x ∈ ser.values) : ser.step ∣ x - a := by
  rcases lt_or_gt_of_ne hs with h | h
  · have := dvd_sub ((mem_loopValues_of_neg h x).mp hx).2.2 ((mem_loopValues_of_neg h a).mp ha).2.2
    rwa [sub_sub_sub_cancel_right] at this
  · have := dvd_sub ((mem_loopValues_of_pos h x).mp hx).2.2 ((mem_loopValues_of_pos h a).mp ha).2.2
    rwa [sub_sub_sub_cancel_right] at this

/-- Between two values of a loop, the multiples of the step are values too. -/
theorem Iter.mem_values_of_between {ser : Iter} (hs : ser.step ≠ 0) {a b x : ℤ}
    (ha : a ∈ ser.values) (hb : b ∈ ser.values) (hax : a ≤ x) (hxb : x ≤ b)
    (hd : ser.step ∣ x - a) : x ∈ ser.values := by
  rcases lt_or_gt_of_ne hs with h | h
  · obtain ⟨ha1, -, ha3⟩ := (mem_loopValues_of_neg h a).mp ha
    obtain ⟨-, hb2, -⟩ := (mem_loopValues_of_neg h b).mp hb
    have := dvd_add hd ha3
    rw [sub_add_sub_cancel] at this
    exact (mem_loopValues_of_neg h x).mpr ⟨by omega, by omega, this⟩
  · obtain ⟨ha1, -, ha3⟩ := (mem_loopValues_of_pos h a).mp ha
    obtain ⟨-, hb2, -⟩ := (mem_loopValues_of_pos h b).mp hb
    have := dvd_add hd ha3
    rw [sub_add_sub_cancel] at this
    exact (mem_loopValues_of_pos h x).mpr ⟨by omega, by omega, this⟩

/-- One rank runs its own iterations when filling up its chunk between two of them adds
nothing. -/
theorem mem_run_iff_of_exact (h : Distributed t i nodes j .cyclic tr) {ser : Iter}
    (hs : ser.step ≠ 0) (hph : ¬ (ser.Phantom ∧ (t.info i).Contains ser.init))
    (hgap : ser.step ∣ (nodes.info j).size ∨ ser.Sparse (t.info i) (nodes.info j).size)
    (r : Fin (nodes.info j).size) (x : ℤ) :
    (x ∈ chunkSet (tr r) i ∧ ∃ a ∈ ser.scheduled, ∃ b ∈ ser.scheduled,
        a ∈ chunkSet (tr r) i ∧ b ∈ chunkSet (tr r) i ∧ a ≤ x ∧ x ≤ b) ↔
      x ∈ ser.values ∧ x ∈ chunkSet (tr r) i := by
  have hreal : ∀ a ∈ ser.scheduled, a ∈ chunkSet (tr r) i → a ∈ ser.values := by
    intro a ha hac
    rcases (ser.mem_scheduled a).mp ha with hv | ⟨hp, rfl⟩
    · exact hv
    · exact absurd ⟨hp, ((mem_chunkSet_cyclic h r _).mp hac).1⟩ hph
  constructor
  · rintro ⟨hx, a, ha, b, hb, hac, hbc, hax, hxb⟩
    have hav := hreal a ha hac
    have hbv := hreal b hb hbc
    refine ⟨?_, hx⟩
    rcases hgap with hd | hsparse
    · exact ser.mem_values_of_between hs hav hbv hax hxb
        (hd.trans (dvd_sub_of_mem_chunkSet h hac hx))
    · have hba := hsparse a hav b hbv ((mem_chunkSet_cyclic h r a).mp hac).1
        ((mem_chunkSet_cyclic h r b).mp hbc).1 (dvd_sub_of_mem_chunkSet h hac hbc)
      obtain rfl : x = a := by omega
      exact hav
  · rintro ⟨hx, hxc⟩
    have hsch := (ser.mem_scheduled x).mpr (Or.inl hx)
    exact ⟨hxc, x, hsch, x, hsch, hxc, hxc, le_rfl, le_rfl⟩

/-- Two iterations of one rank make it run the index one round after the first. -/
theorem step_dvd_of_two_iterations (h : Distributed t i nodes j .cyclic tr) {ser : Iter}
    (hs : ser.step ≠ 0) (hrun : ∀ r x, (x ∈ chunkSet (tr r) i ∧ ∃ a ∈ ser.scheduled,
      ∃ b ∈ ser.scheduled, a ∈ chunkSet (tr r) i ∧ b ∈ chunkSet (tr r) i ∧ a ≤ x ∧ x ≤ b) →
        x ∈ ser.values) {g g' : ℤ} (hg : g ∈ ser.values) (hg' : g' ∈ ser.values)
    (hc : (t.info i).Contains g) (hc' : (t.info i).Contains g') (hlt : g < g')
    (hd : ((nodes.info j).size : ℤ) ∣ g' - g) : ser.step ∣ (nodes.info j).size := by
  have hP := (nodes.info j).size_pos
  have hle := Int.le_of_dvd (by omega) hd
  obtain ⟨r, hr, -⟩ := h.existsUnique_owned (Or.inl (by trivial)) (by rintro m ⟨⟩) hc
  have hgr : g ∈ chunkSet (tr r) i :=
    ((h.cyclic r).mem_chunkSet one_pos (nodes.info j).stride_one g).mpr ⟨hc, hr⟩
  have hmod := ((mem_chunkSet_cyclic h r g).mp hgr).2
  have hg'r : g' ∈ chunkSet (tr r) i := by
    refine (mem_chunkSet_cyclic h r g').mpr ⟨hc', ?_⟩
    rw [← hmod]
    refine ((Int.modEq_iff_dvd).mpr ?_).symm
    rwa [sub_sub_sub_cancel_right]
  have hxr : g + (nodes.info j).size ∈ chunkSet (tr r) i := by
    obtain ⟨hc0, hc1⟩ := hc
    obtain ⟨hc0', hc1'⟩ := hc'
    refine (mem_chunkSet_cyclic h r _).mpr ⟨⟨by omega, by omega⟩, ?_⟩
    rw [← hmod, add_sub_right_comm, Int.add_emod_right]
  have hx := hrun r _ ⟨hxr, g, (ser.mem_scheduled g).mpr (Or.inl hg), g',
    (ser.mem_scheduled g').mpr (Or.inl hg'), hgr, hg'r, by omega, by omega⟩
  have := Iter.dvd_sub_of_mem_values hs hg hx
  rwa [add_sub_cancel_left] at this

end

end OmniCompiler.Xmp
