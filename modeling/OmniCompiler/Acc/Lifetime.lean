import OmniCompiler.Acc.PresentTable

/-!
# Reference counts of memory objects (`acc_data.c`, `acc_memory_cuda.c`)

Creating an array of pointers takes one reference to every pointee and later
references to the array take none, but every release of the array releases the
pointees too. The counts are right as long as an array of pointers is released
once, with its last reference.
-/
namespace OmniCompiler.Acc

open FoldExcept Interleaving

namespace Heap

/-- Object `m` and the arrays of pointers below it have no reference but one. -/
inductive Unshared (s : Heap) : ℕ → Prop
  | intro (m : ℕ) : (s.pointeesOf m ≠ [] → s.refOf m = 1) →
      (∀ p ∈ s.pointeesOf m, Unshared s p) → Unshared s m

/-- `k` references are all there are to `m`, if it is an array of pointers, and the arrays of
pointers below it are not shared. -/
def Whole (s : Heap) (k m : ℕ) : Prop :=
  (s.pointeesOf m ≠ [] → s.refOf m = k) ∧ ∀ p ∈ s.pointeesOf m, s.Unshared p

variable {s t t' : Heap} {D : Finset ℕ} {tok : ℕ → ℤ} {m : ℕ} {M : Memory}

theorem whole_of_plain {k : ℕ} (h : s.pointeesOf m = []) : s.Whole k m := by
  constructor
  · intro hne
    exact absurd h hne
  · intro p hp
    rw [h] at hp
    cases hp

theorem exists_release (he : t.Even) (hfresh : ∀ m, t.next ≤ m → t.memory m = none)
    (hm : t.memory m = some M) (hpos : 0 < M.refCount) : ∃ t', t.release m = .ok t' := by
  rw [release, decrementRefcount, hm]
  dsimp only
  rw [if_neg hpos.ne']
  change ∃ t', (t.set m { M with refCount := M.refCount - 1 }).freeUnused m = .ok t'
  have hself : (t.set m { M with refCount := M.refCount - 1 }).memory m =
      some { M with refCount := M.refCount - 1 } := Function.update_self _ _ _
  rw [freeUnused, hself]
  dsimp only
  by_cases h1 : M.refCount - 1 = 0
  · have hany : (t.table.any (Entry.isOf M.hostAddr M.size)) = true := by
      have hmem : m ∈ t.objects M.hostAddr M.size := by
        rw [mem_objects]
        refine ⟨?_, M, hm, rfl, rfl⟩
        by_contra hc
        rw [hfresh m (Nat.le_of_not_lt hc)] at hm
        cases hm
      have hlen : 0 < (t.table.filter (Entry.isOf M.hostAddr M.size)).length := by
        rw [he]
        exact Finset.card_pos.mpr ⟨m, hmem⟩
      obtain ⟨e, he'⟩ := List.exists_mem_of_length_pos hlen
      rw [List.mem_filter] at he'
      exact List.any_eq_true.mpr ⟨e, he'⟩
    have hremove : (t.set m { M with refCount := M.refCount - 1 }).remove M.hostAddr M.size =
        some { t.set m { M with refCount := M.refCount - 1 } with
          table := t.table.eraseP (Entry.isOf M.hostAddr M.size) } := if_pos hany
    rw [if_pos h1, hremove]
    exact ⟨_, rfl⟩
  · rw [if_neg h1]
    exact ⟨_, rfl⟩

theorem slots_without (hD : m ∉ D) (hlt : m < t.next) (i : ℕ) :
    (t.without m M).slots D i = t.slots (insert m D) i := by
  have hnone : (t.without m M).pointeesOf m = [] := by simp [pointeesOf, without]
  rw [slots_insert hD (show m < (t.without m M).next from hlt), hnone, List.count_nil, add_zero]
  apply slots_congr
  · rfl
  · intro j hj
    have hne : j ≠ m := by
      intro heq
      exact hj (heq ▸ Finset.mem_insert_self m D)
    simp [pointeesOf, without, hne]

theorem refOf_without (x : ℕ) : (t.without m M).refOf x = if x = m then 0 else t.refOf x := by
  by_cases hx : x = m
  · simp [refOf, without, hx]
  · simp [refOf, without, hx]

theorem Sound.release_last (h : t.Sound (insert m D) tok) (hD : m ∉ D)
    (hr : t.release m = .ok t') : t'.Sound D tok := by
  have halone := h.alone m (Finset.mem_insert_self m D)
  obtain ⟨M, hm, ⟨hlt, -⟩ | ⟨-, -, rfl⟩⟩ := release_cases hr
  · rw [refOf_of_memory hm] at halone
    omega
  · have hother : ∀ i ∈ D, i ≠ m := fun i hi heq => hD (heq ▸ hi)
    constructor
    · intro i
      have hc := h.count i
      rw [slots_without hD (h.lt_next hm), refOf_without]
      by_cases hi : i = m
      · subst hi
        rw [halone] at hc
        simp [hD] at hc ⊢
        omega
      · simpa [hi] using hc
    · intro i hi
      rw [refOf_without, if_neg (hother i hi)]
      exact h.alone i (Finset.mem_insert_of_mem hi)
    · exact fresh_of_remains h.fresh (remains_without t m M)

theorem Sound.release (h : t.Sound D fun i => tok i + if i = m then 1 else 0) (hD : m ∉ D)
    (hp : t.pointeesOf m = []) (hr : t.release m = .ok t') : t'.Sound D tok := by
  have hother : ∀ i ∈ D, i ≠ m := fun i hi heq => hD (heq ▸ hi)
  obtain ⟨M, hm, ⟨hlt, rfl⟩ | ⟨hone, -, rfl⟩⟩ := release_cases hr
  · constructor
    · intro i
      have hc := h.count i
      rw [slots_set hm, refOf_set]
      by_cases hi : i = m
      · subst hi
        rw [refOf_of_memory hm] at hc
        simp at hc ⊢
        omega
      · simpa [hi] using hc
    · intro i hi
      rw [refOf_set, if_neg (hother i hi)]
      exact h.alone i hi
    · exact fresh_of_remains h.fresh (remains_set hm (Nat.sub_le _ _))
  · constructor
    · intro i
      have hc := h.count i
      rw [slots_insert hD (h.lt_next hm), hp, List.count_nil, add_zero] at hc
      rw [slots_without hD (h.lt_next hm), refOf_without]
      by_cases hi : i = m
      · subst hi
        rw [refOf_of_memory hm, hone] at hc
        simp [hD] at hc ⊢
        omega
      · simpa [hi] using hc
    · intro i hi
      rw [refOf_without, if_neg (hother i hi)]
      exact h.alone i hi
    · exact fresh_of_remains h.fresh (remains_without t m M)

/-- Releasing an array of pointers with its only reference: its slots become references of their
own. -/
theorem Sound.insert (h : t.Sound D fun i => tok i + if i = m then 1 else 0) (hD : m ∉ D)
    (htok : ∀ i, 0 ≤ tok i) (hone : t.refOf m = 1) (hlt : m < t.next) :
    t.Sound (insert m D) fun i => tok i + (t.pointeesOf m).count i := by
  constructor
  · intro i
    have hc := h.count i
    rw [slots_insert hD hlt] at hc
    by_cases hi : i = m
    · subst hi
      have hnn := htok i
      simp [hD] at hc ⊢
      omega
    · simp [hi] at hc ⊢
      omega
  · intro i hi
    obtain rfl | hi := Finset.mem_insert.mp hi
    · exact hone
    · exact h.alone i hi
  · exact h.fresh

/-- What `free_memory` leaves. -/
structure Freed (s : Heap) (D : Finset ℕ) (tok : ℕ → ℤ) (t : Heap) : Prop where
  remains : Remains s t
  even : t.Even
  sound : t.Sound D tok

theorem Freed.ensures_release (h : Freed s D (fun i => tok i + if i = m then 1 else 0) t)
    (hD : m ∉ D) (hp : t.pointeesOf m = []) (hpos : 0 < t.refOf m) {Bad : Fault → Prop} :
    Ensures (Freed s D tok) Bad (t.release m) := by
  obtain ⟨M, hm, hM⟩ := exists_memory hpos
  obtain ⟨t', hr⟩ := exists_release h.even h.sound.fresh hm (hM ▸ hpos)
  rw [hr]
  exact ⟨h.remains.trans (remains_release hr), h.even.release h.sound.fresh hr,
    h.sound.release hD hp hr⟩

theorem Freed.ensures_release_last (h : Freed s (Insert.insert m D) tok t) (hD : m ∉ D)
    {Bad : Fault → Prop} : Ensures (Freed s D tok) Bad (t.release m) := by
  have halone := h.sound.alone m (Finset.mem_insert_self m D)
  obtain ⟨M, hm, hM⟩ := exists_memory (halone ▸ Nat.one_pos)
  obtain ⟨t', hr⟩ := exists_release h.even h.sound.fresh hm (by omega)
  rw [hr]
  exact ⟨h.remains.trans (remains_release hr), h.even.release h.sound.fresh hr,
    h.sound.release_last hD hr⟩

/-- `free_memory` gives back one reference; it fails for nothing but the bound on its depth. -/
theorem Unshared.ensures_freeMemory (hu : s.Unshared m) : ∃ n, ∀ fuel t D tok,
    Freed s D (fun i => tok i + if i = m then 1 else 0) t → (∀ i, 0 ≤ tok i) →
    Ensures (Freed s D tok) (fun f => f = .deep ∧ fuel < n) (freeMemory fuel m t) := by
  induction hu with
  | intro m hone _ ih =>
    choose! bound hbound using ih
    refine ⟨((s.pointeesOf m).map bound).sum + 1, ?_⟩
    intro fuel t D tok h htok
    cases fuel with
    | zero => exact ⟨rfl, Nat.succ_pos _⟩
    | succ fuel =>
      have hcount := h.sound.count m
      have hnn := htok m
      simp only [if_true] at hcount
      have hD : m ∉ D := by
        intro hD
        rw [h.sound.alone m hD, if_pos hD] at hcount
        omega
      have hpos : 0 < t.refOf m := by
        rw [if_neg hD] at hcount
        omega
      obtain ⟨M, hm, -⟩ := exists_memory hpos
      obtain ⟨N, hN, -, -, hpt, hle⟩ := h.remains.kept m M hm
      have hps : t.pointeesOf m = (M.pointees.getD []).map Prod.fst := by simp [pointeesOf, hm]
      have hpss : s.pointeesOf m = (M.pointees.getD []).map Prod.fst := by
        simp [pointeesOf, hN, hpt]
      unfold freeMemory
      rw [hm]
      dsimp only
      by_cases hnil : M.pointees.getD [] = []
      · rw [hnil]
        apply h.ensures_release hD _ hpos
        rw [hps, hnil]
        rfl
      · -- The only reference is the one given back.
        have hrefs : t.refOf m = 1 := by
          have h1 := hone (by simpa [hpss] using hnil)
          rw [refOf_of_memory hN] at h1
          rw [refOf_of_memory hm] at hpos ⊢
          omega
        have hins := h.sound.insert hD htok hrefs (h.sound.lt_next hm)
        rw [hps] at hins
        have hfold : ∀ ps : List (ℕ × ℤ), (∀ p ∈ ps, p.1 ∈ s.pointeesOf m) → ∀ u,
            Freed s (Insert.insert m D) (fun i => tok i + (ps.map Prod.fst).count i) u →
            Ensures (Freed s (Insert.insert m D) tok)
              (fun f => f = .deep ∧ fuel + 1 < ((s.pointeesOf m).map bound).sum + 1)
              (ps.foldlM (fun s p => freeMemory fuel p.1 s) u) := by
          intro ps
          induction ps with
          | nil =>
            intro _ u hu
            change Freed s (Insert.insert m D) tok u
            simpa using hu
          | cons p ps ihps =>
            intro hmem u hu
            rw [List.foldlM_cons]
            have hp := hmem p List.mem_cons_self
            have hsplit : (fun i => tok i + (((p :: ps).map Prod.fst).count i : ℤ)) =
                fun i => tok i + ((ps.map Prod.fst).count i : ℤ) + if i = p.1 then 1 else 0 := by
              funext i
              by_cases hi : i = p.1
              · simp [hi]
                omega
              · simp [hi, Ne.symm hi]
            rw [hsplit] at hu
            have hfirst := hbound p.1 hp fuel u _ _ hu (fun i => by
              have := htok i
              omega)
            have hle := List.le_sum_of_mem (List.mem_map_of_mem (f := bound) hp)
            apply Ensures.bind (hfirst.imp (fun _ h => h) _)
            · intro v hv
              exact ihps (fun q hq => hmem q (List.mem_cons_of_mem _ hq)) v hv
            · intro f hf
              exact ⟨hf.1, by omega⟩
        apply Ensures.bind (hfold _ _ t ⟨h.remains, h.even, hins⟩)
        · intro u hu
          exact hu.ensures_release_last hD
        · intro p hp
          rw [hpss]
          exact List.mem_map_of_mem hp

/-- Giving back one of the references to `m` leaves the arrays of pointers below it unshared. -/
theorem Unshared.set {x : ℕ} (hx : s.Unshared x) (hm : s.memory m = some M) {c : ℕ}
    (htwo : s.pointeesOf m ≠ [] → s.refOf m = 2) :
    (s.set m { M with refCount := c }).Unshared x := by
  induction hx with
  | intro x hone _ ih =>
    constructor
    · rw [pointeesOf_set hm, refOf_set]
      intro hne
      by_cases hxm : x = m
      · subst hxm
        have h1 := hone hne
        have h2 := htwo hne
        omega
      · rw [if_neg hxm]
        exact hone hne
    · rw [pointeesOf_set hm]
      exact ih

theorem Sound.decrement {d : ℕ} (h : s.Sound ∅ fun i => tok i + if i = d then 1 else 0)
    (hm : s.memory d = some M) (hpos : 0 < M.refCount) :
    (s.set d { M with refCount := M.refCount - 1 }).Sound ∅ tok := by
  constructor
  · intro i
    have hc := h.count i
    rw [slots_set hm, refOf_set]
    by_cases hi : i = d
    · subst hi
      rw [refOf_of_memory hm] at hc
      simp at hc ⊢
      omega
    · simpa [hi] using hc
  · simp
  · exact fresh_of_remains h.fresh (remains_set hm (Nat.sub_le _ _))

/-- `_ACC_finalize_data` gives back the references of the descriptor. -/
def givenBack : Kind → ℕ
  | .data => 1
  | .enter => 0
  | .exit => 2

theorem Tidy.ensures_finalizeData {d : Desc} {kind : Kind} (hs : s.Tidy)
    (h : s.Sound ∅ fun i => tok i + if i = d.memory then (givenBack kind : ℤ) else 0)
    (htok : ∀ i, 0 ≤ tok i) (hwhole : kind ≠ .enter → s.Whole (givenBack kind) d.memory) :
    ∃ n, ∀ fuel, Ensures (fun t => t.Sound ∅ tok) (fun f => f = .deep ∧ fuel < n)
      (finalizeData d kind fuel s) := by
  cases kind with
  | enter =>
    refine ⟨0, fun fuel => ?_⟩
    simpa [finalizeData, givenBack, pure, Except.pure, bind, Except.bind, Ensures] using h
  | data =>
    have hu : s.Unshared d.memory := ⟨_, (hwhole (by simp)).1, (hwhole (by simp)).2⟩
    obtain ⟨n, hn⟩ := hu.ensures_freeMemory
    refine ⟨n, fun fuel => ?_⟩
    have hfree := hn fuel s ∅ tok ⟨Remains.refl s, hs.listed.even hs.fresh, by
      simpa [givenBack] using h⟩ htok
    have hcalls : finalizeData d .data fuel s = freeMemory fuel d.memory s := by
      simp [finalizeData, pure, Except.pure, bind, Except.bind]
    rw [hcalls]
    exact hfree.imp (fun t ht => ht.sound) fun f hf => hf
  | exit =>
    have hcount := h.count d.memory
    have hnn := htok d.memory
    obtain ⟨M, hm, hM⟩ : ∃ M, s.memory d.memory = some M ∧ M.refCount = s.refOf d.memory := by
      apply exists_memory
      simp [givenBack] at hcount
      omega
    have hpos := hs.pos d.memory M hm
    have hsound : (s.set d.memory { M with refCount := M.refCount - 1 }).Sound ∅
        (fun i => tok i + if i = d.memory then 1 else 0) := by
      apply Sound.decrement _ hm hpos
      have htwo : (fun i => tok i + if i = d.memory then (givenBack .exit : ℤ) else 0) =
          fun i => (tok i + if i = d.memory then 1 else 0) + if i = d.memory then 1 else 0 := by
        funext i
        by_cases hi : i = d.memory
        · simp [hi, givenBack]
          omega
        · simp [hi]
      rwa [htwo] at h
    have htwo := (hwhole (by simp)).1
    have hu : (s.set d.memory { M with refCount := M.refCount - 1 }).Unshared d.memory := by
      constructor
      · rw [pointeesOf_set hm, refOf_set, if_pos rfl]
        intro hne
        have h2 := htwo hne
        rw [refOf_of_memory hm] at h2
        simp [h2, givenBack]
      · rw [pointeesOf_set hm]
        intro p hp
        exact ((hwhole (by simp)).2 p hp).set hm htwo
    obtain ⟨n, hn⟩ := hu.ensures_freeMemory
    refine ⟨n, fun fuel => ?_⟩
    have hlisted : (s.set d.memory { M with refCount := M.refCount - 1 }).Listed :=
      hs.listed.set hm rfl rfl
    have hfree := hn fuel _ ∅ tok ⟨Remains.refl _, hlisted.even hsound.fresh, hsound⟩ htok
    have hcalls : finalizeData d .exit fuel s =
        freeMemory fuel d.memory (s.set d.memory { M with refCount := M.refCount - 1 }) := by
      have hdec : s.decrementRefcount d.memory =
          .ok (s.set d.memory { M with refCount := M.refCount - 1 }) := by
        rw [decrementRefcount, hm]
        exact if_neg hpos.ne'
      simp [finalizeData, hdec, bind, Except.bind]
    rw [hcalls]
    exact hfree.imp (fun t ht => ht.sound) fun f hf => hf

end Heap

/-! ## Runs -/

/-- `enter data` does not look for present data only, `exit data` looks for nothing else, and what
it finds has a reference of an `enter data`. -/
def Matched (c : Call) (s : Session) : Prop :=
  match c with
  | .init kind mode .. => (kind = .enter → mode ≠ .present) ∧ (kind = .exit → mode = .present)
  | .finalize i _ => ∀ d ∈ s.descs[i]?, d.2 = .exit → d.1.memory ∈ s.entered

instance (c : Call) (s : Session) : Decidable (Matched c s) :=
  match c with
  | .init kind mode .. => inferInstanceAs (Decidable
      ((kind = .enter → mode ≠ .present) ∧ (kind = .exit → mode = .present)))
  | .finalize i _ => inferInstanceAs (Decidable
      (∀ d ∈ s.descs[i]?, d.2 = .exit → d.1.memory ∈ s.entered))

def WholeFirst (c : Call) (s : Session) : Prop :=
  match c with
  | .init .. => True
  | .finalize i _ => ∀ d ∈ s.descs[i]?, d.2 ≠ .enter →
      s.heap.Whole (Heap.givenBack d.2) d.1.memory

structure Balanced (c : Call) (s : Session) : Prop where
  matched : Matched c s
  newest : NewestFirst c s
  whole : WholeFirst c s

/-- References of regions and of `enter data`. -/
def Session.held (s : Session) (m : ℕ) : ℕ :=
  (s.descs.map fun d => d.1.memory).count m + s.entered.count m

structure Counted (s : Session) : Prop where
  tidy : s.heap.Tidy
  sound : s.heap.Sound ∅ fun m => s.held m

theorem Counted.refCount {s : Session} (h : Counted s) {m : ℕ} {M : Memory}
    (hm : s.heap.memory m = some M) : M.refCount = s.refs m := by
  have hc := h.sound.count m
  rw [Heap.refOf_of_memory hm] at hc
  simp [Session.held] at hc
  rw [Session.refs]
  omega

theorem Counted.isSome_iff {s : Session} (h : Counted s) (m : ℕ) :
    (s.heap.memory m).isSome ↔ 0 < s.refs m := by
  cases hm : s.heap.memory m with
  | none =>
    have hc := h.sound.count m
    have hzero : s.heap.refOf m = 0 := by simp [Heap.refOf, hm]
    rw [hzero, if_neg (Finset.notMem_empty m)] at hc
    have hheld : s.refs m = s.held m + s.heap.slots ∅ m := rfl
    rw [hheld]
    simp
    omega
  | some M =>
    have hpos := h.tidy.pos m M hm
    rw [h.refCount hm] at hpos
    simp [hpos]

theorem held_eraseIdx {s : Session} {i : ℕ} {d : Desc} {kind : Kind}
    (hd : s.descs[i]? = some (d, kind)) (m : ℕ) :
    (s.descs.map fun d => d.1.memory).count m =
      ((s.descs.eraseIdx i).map fun d => d.1.memory).count m + if m = d.memory then 1 else 0 := by
  obtain ⟨hi, hget⟩ := List.getElem?_eq_some_iff.mp hd
  have hperm := (List.getElem_cons_eraseIdx_perm hi).map fun d : Desc × Kind => d.1.memory
  rw [← hperm.count_eq, List.map_cons, hget]
  by_cases hm : m = d.memory
  · simp [hm]
  · simp [hm, Ne.symm hm]

theorem held_finish {s : Session} {i : ℕ} {d : Desc} {kind : Kind} {h : Heap}
    (hd : s.descs[i]? = some (d, kind)) (hentered : kind = .exit → d.memory ∈ s.entered) (m : ℕ) :
    (s.held m : ℤ) = (s.finish i d kind h).held m +
      if m = d.memory then (Heap.givenBack kind : ℤ) else 0 := by
  unfold Session.held
  rw [held_eraseIdx hd]
  cases kind with
  | data =>
    by_cases hm : m = d.memory
    · simp [Session.finish, Heap.givenBack, hm]
      omega
    · simp [Session.finish, hm]
  | enter =>
    by_cases hm : m = d.memory
    · simp [Session.finish, Heap.givenBack, hm]
      omega
    · simp [Session.finish, hm, Ne.symm hm]
  | exit =>
    have hmem := List.count_pos_iff.mpr (hentered rfl)
    by_cases hm : m = d.memory
    · simp [Session.finish, Heap.givenBack, hm]
      omega
    · simp [Session.finish, hm, List.count_erase_of_ne hm]

theorem held_init {s : Session} {h : Heap} {d : Desc} {kind : Kind} (m : ℕ) :
    (({ s with heap := h, descs := s.descs ++ [(d, kind)] } : Session).held m : ℤ) =
      s.held m + if m = d.memory then 1 else 0 := by
  unfold Session.held
  by_cases hm : m = d.memory
  · simp [hm]
    omega
  · simp [hm, Ne.symm hm]

theorem Counted.ensures_init {s : Session} (hs : Counted s) (kind : Kind) (mode : Mode) (env : Env)
    (addr : ℤ) (typeSize : ℕ) (dims : List Dim) (pointerDimBit : ℕ) :
    Ensures (fun s' : Session => s'.heap.Sound ∅ fun m => s'.held m) Heap.UserError
      (exec (.init kind mode env addr typeSize dims pointerDimBit) s) := by
  unfold exec
  dsimp only
  apply Ensures.bind (Heap.ensures_initData env mode addr typeSize dims pointerDimBit
    ⟨hs.sound, hs.tidy.listed⟩)
  intro r hr
  have hheld := fun m => @held_init s r.1 r.2.1 kind m
  have hsound := hr.ready.sound
  simp only [← hheld] at hsound
  exact hsound

theorem Counted.ensures_finalize {s : Session} (hs : Counted s) {i fuel' : ℕ}
    (hok : Balanced (.finalize i fuel') s) :
    ∃ n, ∀ fuel, Ensures (fun s' : Session => s'.heap.Sound ∅ fun m => s'.held m)
      (fun f => f = .deep ∧ fuel < n) (exec (.finalize i fuel) s) := by
  cases hd : s.descs[i]? with
  | none =>
    refine ⟨0, fun fuel => ?_⟩
    unfold exec
    dsimp only
    rw [hd]
    exact hs.sound
  | some p =>
    obtain ⟨d, kind⟩ := p
    have hheld := fun h => held_finish (h := h) hd (hok.matched (d, kind) hd)
    have hsound := hs.sound
    simp only [hheld s.heap] at hsound
    obtain ⟨n, hn⟩ := hs.tidy.ensures_finalizeData hsound (fun m => by positivity)
      (hok.whole (d, kind) hd)
    refine ⟨n, fun fuel => ?_⟩
    unfold exec
    dsimp only
    rw [hd]
    apply Ensures.bind (hn fuel)
    intro h hh
    exact hh

theorem counted_start : Counted Session.start := by
  constructor
  · exact tidy_start
  · constructor
    · intro m
      simp [Session.start, Session.held, Heap.refOf, Heap.slots]
    · simp
    · intro m _
      rfl

theorem Counted.step {c : Call} {s s' : Session} (hs : Counted s) (hok : Balanced c s)
    (h : Acc.step c s = some s') : Counted s' := by
  refine ⟨tidy_step hs.tidy hok.newest h, ?_⟩
  have hexec := exec_of_step h
  cases c with
  | init kind mode env addr typeSize dims pointerDimBit =>
    have hens := hs.ensures_init kind mode env addr typeSize dims pointerDimBit
    rw [hexec] at hens
    exact hens
  | finalize i fuel =>
    obtain ⟨n, hn⟩ := hs.ensures_finalize hok
    have hens := hn fuel
    rw [hexec] at hens
    exact hens

end OmniCompiler.Acc
