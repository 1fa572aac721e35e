import OmniCompiler.Xmp.ArrayBuilt

/-!
# Shadow areas (`xmp_shadow.c`)

`_XMP_init_shadow` widens the allocated size of an aligned array and shifts its local bounds. The
communicators and schedules for the exchange of shadow areas are left out.
-/
namespace OmniCompiler.Xmp

open FoldExcept

variable {k d n : ℕ}

inductive Shadow where
  | none
  | normal (lo hi : ℤ)
  | full
  deriving DecidableEq, Repr

/-- One dimension of `_XMP_init_shadow`. -/
def initShadowDim (isAllocated : Bool) (ai : ArrayInfo d) : Shadow → Except String (ArrayInfo d)
  | .none => .ok ai
  | .normal lo hi =>
    if lo < 0 ∨ hi < 0 then .error "<shadow-width> should be a nonnegative integer"
    else if lo = 0 ∧ hi = 0 then .ok ai
    else
      let ai := { ai with shadowSizeLo := lo, shadowSizeHi := hi }
      if isAllocated then
        .ok { ai with
          localLower := ai.localLower + lo
          localUpper := ai.localUpper + lo
          allocSize := ai.allocSize + (lo + hi) }
      else .ok ai
  | .full =>
    if isAllocated then
      .ok { ai with
        shadowSizeLo := ai.parLower - ai.serLower
        shadowSizeHi := ai.serUpper - ai.parUpper
        localLower := ai.parLower - ai.serLower
        localUpper := ai.parUpper - ai.serLower
        localStride := ai.parStride
        allocSize := ai.serSize }
    else .ok ai

def initShadow (array : XmpArray k d n) (shadow : Fin k → Shadow) :
    Except String (XmpArray k d n) :=
  (List.finRange k).foldlM (fun array i => do
    let ai ← initShadowDim array.isAllocated (array.info i) (shadow i)
    .ok (array.setInfo i ai array.isAllocated)) array

/-- What `_XMP_init_shadow` makes of one dimension; the alignment is kept. -/
structure ShadowedDim (isAllocated : Bool) (ai ai' : ArrayInfo d) (shadow : Shadow) : Prop where
  serLower : ai'.serLower = ai.serLower
  serUpper : ai'.serUpper = ai.serUpper
  alignManner : ai'.alignManner = ai.alignManner
  alignSubscript : ai'.alignSubscript = ai.alignSubscript
  alignTemplateIndex : ai'.alignTemplateIndex = ai.alignTemplateIndex
  none : shadow = .none → ai' = ai
  normal : ∀ lo hi, shadow = .normal lo hi → 0 ≤ lo ∧ 0 ≤ hi ∧
    (ai.shadowSizeLo = 0 → ai'.shadowSizeLo = lo) ∧
    (isAllocated = true → ai'.allocSize = ai.allocSize + (lo + hi))

theorem initShadowDim_spec {isAllocated : Bool} {ai ai' : ArrayInfo d} {shadow : Shadow}
    (h : initShadowDim isAllocated ai shadow = .ok ai') :
    ShadowedDim isAllocated ai ai' shadow := by
  cases shadow with
  | none =>
    cases h
    exact ⟨rfl, rfl, rfl, rfl, rfl, fun _ => rfl, by simp⟩
  | normal lo hi =>
    simp only [initShadowDim] at h
    split_ifs at h with hneg hzero halloc
    all_goals
      cases h
      refine ⟨rfl, rfl, rfl, rfl, rfl, by simp, ?_⟩
      rintro _ _ ⟨rfl, rfl⟩
      refine ⟨by omega, by omega, ?_, ?_⟩
    · intro h0
      rw [h0, hzero.1]
    · intro _
      omega
    · exact fun _ => rfl
    · exact fun _ => rfl
    · exact fun _ => rfl
    · exact fun h => absurd h halloc
  | full =>
    simp only [initShadowDim] at h
    split_ifs at h
    all_goals
      cases h
      exact ⟨rfl, rfl, rfl, rfl, rfl, by simp, by simp⟩

theorem initShadow_step {shadow : Fin k → Shadow} {a a' : XmpArray k d n} {i : Fin k}
    (h : (do
      let ai ← initShadowDim a.isAllocated (a.info i) (shadow i)
      .ok (a.setInfo i ai a.isAllocated) : Except String (XmpArray k d n)) = .ok a') :
    ∃ ai, initShadowDim a.isAllocated (a.info i) (shadow i) = .ok ai ∧
      a' = a.setInfo i ai a.isAllocated := by
  cases hai : initShadowDim a.isAllocated (a.info i) (shadow i) with
  | error e => simp [hai, bind, Except.bind] at h
  | ok ai =>
    rw [hai] at h
    cases h
    exact ⟨ai, rfl, rfl⟩

/-- A run of the loop writes each of its dimensions once and keeps the others. -/
theorem initShadow_run {shadow : Fin k → Shadow} {l : List (Fin k)} (hl : l.Nodup)
    {a a' : XmpArray k d n} (h : l.foldlM (fun array i => do
      let ai ← initShadowDim array.isAllocated (array.info i) (shadow i)
      .ok (array.setInfo i ai array.isAllocated)) a = (.ok a' : Except String (XmpArray k d n))) :
    a'.alignTemplate = a.alignTemplate ∧ a'.isAllocated = a.isAllocated ∧
      (∀ i ∈ l, initShadowDim a.isAllocated (a.info i) (shadow i) = .ok (a'.info i)) ∧
      ∀ i ∉ l, a'.info i = a.info i := by
  induction l using List.reverseRecOn generalizing a' with
  | nil =>
    cases h
    exact ⟨rfl, rfl, by simp, fun _ _ => rfl⟩
  | append_singleton l j ih =>
    obtain ⟨b, hb, hj⟩ := foldlM_concat_eq_ok.mp h
    rw [List.nodup_append] at hl
    have hjl : j ∉ l := fun hmem => hl.2.2 j hmem j (List.mem_singleton_self j) rfl
    obtain ⟨ht, halloc, hdone, hrest⟩ := ih hl.1 hb
    obtain ⟨ai, hai, rfl⟩ := initShadow_step hj
    have hother : ∀ i, i ≠ j → ((b.setInfo j ai b.isAllocated).info i) = b.info i := by
      intro i hi
      rw [XmpArray.setInfo_info, Function.update_of_ne hi]
    refine ⟨ht, halloc, ?_, ?_⟩
    · intro i hi
      rcases List.mem_append.mp hi with hi | hi
      · rw [hother i (fun hij => hjl (hij ▸ hi))]
        exact hdone i hi
      · obtain rfl := List.mem_singleton.mp hi
        rw [XmpArray.setInfo_info, Function.update_self, ← hrest i hjl, ← halloc]
        exact hai
    · intro i hi
      rw [List.mem_append, not_or] at hi
      rw [hother i (fun hij => hi.2 (List.mem_singleton.mpr hij))]
      exact hrest i hi.1

theorem initShadow_spec {a a' : XmpArray k d n} {shadow : Fin k → Shadow}
    (h : initShadow a shadow = .ok a') :
    a'.alignTemplate = a.alignTemplate ∧ a'.isAllocated = a.isAllocated ∧
      ∀ i, ShadowedDim a.isAllocated (a.info i) (a'.info i) (shadow i) := by
  obtain ⟨ht, halloc, hdone, -⟩ := initShadow_run (List.nodup_finRange k) h
  exact ⟨ht, halloc, fun i => initShadowDim_spec (hdone i (List.mem_finRange i))⟩

theorem initShadow_none (a : XmpArray k d n) : initShadow a (fun _ => .none) = .ok a := by
  have hself : ∀ i, a.setInfo i (a.info i) a.isAllocated = a := by
    intro i
    simp [XmpArray.setInfo, Function.update_eq_self]
  unfold initShadow
  induction List.finRange k with
  | nil => rfl
  | cons i l ih =>
    rw [List.foldlM_cons]
    simpa only [initShadowDim, bind, Except.bind, hself] using ih

/-! ## Before the shadow is set -/

theorem alignInfo_shadowSizeLo {a a' : XmpArray k d n} {i : Fin k} {target : Option (Fin d × ℤ)}
    (h : alignInfo a i target = .ok a') : (a'.info i).shadowSizeLo = (a.info i).shadowSizeLo := by
  have hwith : ∀ {t : Fin d} {sub : ℤ} {manner : AlignManner} {regular : Bool}
      {members : ArrayInfo d × Bool}, members.1.shadowSizeLo = (a.info i).shadowSizeLo →
      alignArrayWith a i t sub manner regular members = .ok a' →
      (a'.info i).shadowSizeLo = (a.info i).shadowSizeLo := by
    intro t sub manner regular members hm hok
    unfold alignArrayWith at hok
    dsimp only at hok
    split_ifs at hok
    all_goals
      cases hok
      simp [hm]
  have hcont : ∀ (ai : ArrayInfo d) (chunk : TemplateChunk n) (sub : ℤ),
      (contiguousInfo ai chunk sub).1.shadowSizeLo = ai.shadowSizeLo := by
    intro ai chunk sub
    unfold contiguousInfo
    dsimp only
    split_ifs <;> rfl
  unfold alignInfo at h
  cases target with
  | none =>
    cases h
    simp [alignArrayNotAligned]
  | some target =>
    obtain ⟨t, sub⟩ := target
    dsimp only at h
    split_ifs at h
    split at h
    · exact hwith rfl h
    · exact hwith (hcont _ _ _) h
    · exact hwith rfl h
    · exact hwith rfl h
    · exact hwith (hcont _ _ _) h

theorem ArrayDecl.Built.shadowSizeLo {decl : ArrayDecl k d n} {c : decl.Coord} {a : XmpArray k d n}
    (h : decl.Built c a) (i : Fin k) : (a.info i).shadowSizeLo = 0 := by
  obtain ⟨t₀, fresh, t', -, -, -, halign⟩ := h
  have hrun := @foldlM_spec _ _ _ _ _ (fun b : XmpArray k d n => ∀ i, (b.info i).shadowSizeLo = 0)
    (fun _ _ => True) (fun i : Fin k => i) ?_ (fun _ _ _ _ _ _ _ _ => trivial) _
    (by simpa using List.nodup_finRange k) _ _ (fun _ => rfl) halign
  · exact hrun.1 i
  · rintro b j b' hb hstep
    refine ⟨fun i' => ?_, trivial⟩
    by_cases hi : i' = j
    · rw [hi, alignInfo_shadowSizeLo hstep]
      exact hb j
    · rw [(alignInfo_step hstep).frame i' hi]
      exact hb i'

end OmniCompiler.Xmp
