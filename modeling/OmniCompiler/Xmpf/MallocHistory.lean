import Mathlib.Tactic

/-!
# The history of allocations (`xmpf_coarray_alloc.c`, structures I and II)

The low-level library can free only the coarray that was allocated last. A chunk whose
coarrays are all deallocated becomes garbage, and the garbage at the end of the history
is freed by the next collection. A descriptor that was made for a dummy argument keeps
its chunk from becoming garbage, and deregistering does not collect. Pointers are
numbers that are not used again.
-/
namespace OmniCompiler.Xmpf

/-- A chunk of the history. Of its linkage the resource set it is linked from is kept; `owner` is
the descriptor of the coarray that it was made for, and `allocated` says whether this coarray is
not deallocated yet. -/
structure HistoryChunk where
  orgAddr : ℕ
  nbytes : ℕ
  desc : ℕ
  owner : ℕ
  coarrays : List ℕ
  parent : Option ℕ
  isGarbage : Bool
  allocated : Bool

/-- The history and the queue of the low-level library, latest first, the resource sets, what has
been freed together with the low-level coarray that was deallocated for it, and the next pointer. -/
structure AllocState where
  history : List HistoryChunk
  queue : List ℕ
  rsets : List ℕ
  freed : List (HistoryChunk × Option ℕ)
  next : ℕ

/-- A call of the run-time library. Addresses and sizes of the memory come from the low-level
library or are those of a variable. -/
inductive AllocCall
  | malloc (tag : Option ℕ) (orgAddr nbytes : ℕ)
  | regmem (var nbytes : ℕ)
  | free (descPtr : ℕ)
  | deregmem (descPtr : ℕ)
  | findDescptr (baseAddr : ℕ)
  | prolog
  | epilog (tag : Option ℕ)

def updateFirst {α : Type*} (p : α → Bool) (f : α → α) : List α → List α
  | [] => []
  | a :: l => if p a then f a :: l else a :: updateFirst p f l

section Code

variable (s : AllocState)

/-- `_constructMemoryChunk`, with the descriptor of the coarray that the chunk is made for. -/
def newChunk (parent : Option ℕ) (orgAddr nbytes : ℕ) : AllocState :=
  { s with
    history := { orgAddr, nbytes, desc := s.next, owner := s.next, coarrays := [s.next], parent,
                 isGarbage := false, allocated := true } :: s.history
    queue := s.next :: s.queue
    next := s.next + 1 }

def unlinkMemoryChunk (c : HistoryChunk) : HistoryChunk :=
  { c with isGarbage := true, parent := none }

/-- `_unlinkCoarrayInfo` and `_freeCoarrayInfo`. -/
def freeCoarrayInfo (descPtr : ℕ) (c : HistoryChunk) : HistoryChunk :=
  { c with
    coarrays := c.coarrays.erase descPtr
    allocated := if descPtr = c.owner then false else c.allocated }

/-- The loop of `_garbageCollectMallocHistory`, with `_freeMemoryChunk` and
`_XMP_coarray_lastly_deallocate`, which pops the queue. -/
def collectFrom : List HistoryChunk → List ℕ → List (HistoryChunk × Option ℕ) →
    List HistoryChunk × List ℕ × List (HistoryChunk × Option ℕ)
  | [], queue, freed => ([], queue, freed)
  | c :: history, queue, freed =>
    if c.isGarbage then collectFrom history queue.tail ((c, queue.head?) :: freed)
    else (c :: history, queue, freed)

def garbageCollect : AllocState :=
  let (history, queue, freed) := collectFrom s.history s.queue s.freed
  { s with history, queue, freed }

/-- The common part of `xmpf_coarray_free_` and `xmpf_coarray_deregmem_`; the answer is whether the
chunk has become empty. A garbage chunk is not booked in the chunk table any more. -/
def releaseCoarray (descPtr : ℕ) : Option (Bool × AllocState) :=
  (s.history.find? fun c => descPtr ∈ c.coarrays).bind fun c =>
    let c' := freeCoarrayInfo descPtr c
    if c'.coarrays ≠ [] then
      some (false, { s with
        history := updateFirst (fun c => descPtr ∈ c.coarrays) (fun _ => c') s.history })
    else if c.isGarbage ∧ c.nbytes ≠ 0 then none
    else
      some (true, { s with
        history := updateFirst (fun c => descPtr ∈ c.coarrays) (fun _ => unlinkMemoryChunk c')
          s.history })

/-- `_getMemoryChunkFromLocalAddress`: the chunk is not garbage and covers the address. -/
def HistoryChunk.isFoundAt (addr : ℕ) (c : HistoryChunk) : Bool :=
  !c.isGarbage && decide (c.orgAddr ≤ addr ∧ addr < c.orgAddr + c.nbytes)

def coarrayFindDescptr (baseAddr : ℕ) : AllocState :=
  { s with
    history := updateFirst (HistoryChunk.isFoundAt baseAddr)
      (fun c => { c with coarrays := c.coarrays ++ [s.next] }) s.history
    next := s.next + 1 }

def freeResourceSet (tag : ℕ) : AllocState :=
  if s.history.all fun c => c.parent ≠ some tag then { s with rsets := s.rsets.erase tag }
  else garbageCollect { s with
    history := s.history.map fun c =>
      if c.parent = some tag then unlinkMemoryChunk { c with allocated := false } else c
    rsets := s.rsets.erase tag }

/-- One call; `none` where the tag or the descriptor is not a live one, or the program ends. -/
def AllocCall.step : AllocCall → Option AllocState
  | .malloc none orgAddr nbytes => some (newChunk s none orgAddr nbytes)
  | .malloc (some tag) orgAddr nbytes =>
    if tag ∈ s.rsets then some (newChunk s (some tag) orgAddr nbytes) else none
  | .regmem var nbytes => some (newChunk s none var nbytes)
  | .free descPtr => (releaseCoarray s descPtr).map fun (empty, s) =>
      if empty then garbageCollect s else s
  | .deregmem descPtr => (releaseCoarray s descPtr).map Prod.snd
  | .findDescptr baseAddr => some (coarrayFindDescptr s baseAddr)
  | .prolog => some { s with rsets := s.next :: s.rsets, next := s.next + 1 }
  | .epilog none => some s
  | .epilog (some tag) => if tag ∈ s.rsets then some (freeResourceSet s tag) else none

end Code

/-- The pool of the static coarrays, which is allocated before everything else. -/
def initialState (orgAddr nbytes : ℕ) : AllocState where
  history := [{ orgAddr, nbytes, desc := 0, owner := 0, coarrays := [0], parent := none,
                isGarbage := false, allocated := true }]
  queue := [0]
  rsets := []
  freed := []
  next := 1

def allocRun (calls : List AllocCall) (s : AllocState) : Option AllocState :=
  calls.foldlM (fun s call => call.step s) s

/-! ## Every run -/

/-- The queue goes with the history; what is garbage or freed has been deallocated, and was freed
together with its own low-level coarray. -/
structure Lockstep (s : AllocState) : Prop where
  queue : s.queue = s.history.map HistoryChunk.desc
  garbage : ∀ c ∈ s.history, c.isGarbage = true → c.allocated = false
  linked : ∀ c ∈ s.history, c.allocated = true → c.owner ∈ c.coarrays
  freed : ∀ e ∈ s.freed, e.2 = some e.1.desc ∧ e.1.allocated = false

theorem updateFirst_split {α : Type*} {p : α → Bool} {l : List α} {a : α} (h : l.find? p = some a)
    (f : α → α) : ∃ l₁ l₂, l = l₁ ++ a :: l₂ ∧ updateFirst p f l = l₁ ++ f a :: l₂ := by
  induction l with
  | nil => cases h
  | cons b l ih =>
    rw [updateFirst]
    cases hb : p b with
    | true =>
      rw [List.find?_cons_of_pos hb] at h
      obtain rfl := Option.some.inj h
      exact ⟨[], l, rfl, rfl⟩
    | false =>
      rw [List.find?_cons_of_neg (by simp [hb])] at h
      obtain ⟨l₁, l₂, hl, hupdate⟩ := ih h
      refine ⟨b :: l₁, l₂, by rw [hl]; rfl, ?_⟩
      rw [if_neg (by simp), hupdate]
      rfl

theorem updateFirst_of_none {α : Type*} {p : α → Bool} {l : List α} (h : l.find? p = none)
    (f : α → α) : updateFirst p f l = l := by
  induction l with
  | nil => rfl
  | cons b l ih =>
    rw [List.find?_eq_none] at h
    have hb := h b List.mem_cons_self
    rw [updateFirst, if_neg hb,
      ih (List.find?_eq_none.mpr fun a ha => h a (List.mem_cons_of_mem b ha))]

theorem Lockstep.update {s : AllocState} (hs : Lockstep s) {p : HistoryChunk → Bool}
    {c : HistoryChunk} (hc : s.history.find? p = some c) {f : HistoryChunk → HistoryChunk}
    (hdesc : (f c).desc = c.desc)
    (hgarbage : (f c).isGarbage = true → (f c).allocated = false)
    (hlinked : (f c).allocated = true → (f c).owner ∈ (f c).coarrays) {next : ℕ} :
    Lockstep { s with history := updateFirst p f s.history, next := next } := by
  obtain ⟨l₁, l₂, hl, hupdate⟩ := updateFirst_split hc f
  have hmem : ∀ c' ∈ updateFirst p f s.history, c' ∈ s.history ∨ c' = f c := by
    intro c' hc'
    rw [hupdate, List.mem_append, List.mem_cons] at hc'
    rw [hl, List.mem_append, List.mem_cons]
    tauto
  constructor
  · show s.queue = (updateFirst p f s.history).map HistoryChunk.desc
    rw [hs.queue, hupdate, hl, List.map_append, List.map_append, List.map_cons,
      List.map_cons, hdesc]
  · intro c' hc'
    obtain hold | rfl := hmem c' hc'
    · exact hs.garbage c' hold
    · exact hgarbage
  · intro c' hc'
    obtain hold | rfl := hmem c' hc'
    · exact hs.linked c' hold
    · exact hlinked
  · exact hs.freed

theorem collectFrom_lockstep {history : List HistoryChunk} {queue : List ℕ}
    {freed : List (HistoryChunk × Option ℕ)} {rsets : List ℕ} {next : ℕ}
    (hs : Lockstep ⟨history, queue, rsets, freed, next⟩) :
    Lockstep ⟨(collectFrom history queue freed).1, (collectFrom history queue freed).2.1, rsets,
      (collectFrom history queue freed).2.2, next⟩ := by
  induction history generalizing queue freed with
  | nil => exact hs
  | cons c history ih =>
    rw [collectFrom]
    cases hc : c.isGarbage with
    | false => exact hs
    | true =>
      have hqueue : queue = c.desc :: history.map HistoryChunk.desc := hs.queue
      apply ih
      constructor
      · show queue.tail = history.map HistoryChunk.desc
        rw [hqueue, List.tail_cons]
      · exact fun c' hc' => hs.garbage c' (List.mem_cons_of_mem c hc')
      · exact fun c' hc' => hs.linked c' (List.mem_cons_of_mem c hc')
      · intro e he
        obtain rfl | he := List.mem_cons.mp he
        · refine ⟨?_, hs.garbage c List.mem_cons_self hc⟩
          show queue.head? = some c.desc
          rw [hqueue, List.head?_cons]
        · exact hs.freed e he

theorem Lockstep.collect {s : AllocState} (hs : Lockstep s) : Lockstep (garbageCollect s) :=
  collectFrom_lockstep hs

theorem newChunk_lockstep {s : AllocState} (hs : Lockstep s) (parent : Option ℕ)
    (orgAddr nbytes : ℕ) : Lockstep (newChunk s parent orgAddr nbytes) := by
  constructor
  · show s.next :: s.queue = s.next :: s.history.map HistoryChunk.desc
    rw [hs.queue]
  · intro c hc hgarbage
    obtain rfl | hc := List.mem_cons.mp hc
    · cases hgarbage
    · exact hs.garbage c hc hgarbage
  · intro c hc halloc
    obtain rfl | hc := List.mem_cons.mp hc
    · exact List.mem_cons_self
    · exact hs.linked c hc halloc
  · exact hs.freed

def released (descPtr : ℕ) (c : HistoryChunk) : HistoryChunk :=
  if c.coarrays.erase descPtr = [] then unlinkMemoryChunk (freeCoarrayInfo descPtr c)
  else freeCoarrayInfo descPtr c

theorem released_desc (descPtr : ℕ) (c : HistoryChunk) : (released descPtr c).desc = c.desc := by
  unfold released
  split_ifs
  · rfl
  · rfl

theorem released_owner (descPtr : ℕ) (c : HistoryChunk) : (released descPtr c).owner = c.owner := by
  unfold released
  split_ifs
  · rfl
  · rfl

theorem released_coarrays (descPtr : ℕ) (c : HistoryChunk) :
    (released descPtr c).coarrays = c.coarrays.erase descPtr := by
  unfold released
  split_ifs
  · rfl
  · rfl

theorem released_allocated (descPtr : ℕ) (c : HistoryChunk) :
    (released descPtr c).allocated = if descPtr = c.owner then false else c.allocated := by
  unfold released
  split_ifs
  all_goals simp_all [unlinkMemoryChunk, freeCoarrayInfo]

theorem released_isGarbage (descPtr : ℕ) (c : HistoryChunk) : (released descPtr c).isGarbage =
    if c.coarrays.erase descPtr = [] then true else c.isGarbage := by
  unfold released
  split_ifs
  · rfl
  · rfl

theorem releaseCoarray_cases {s s' : AllocState} {descPtr : ℕ} {empty : Bool}
    (h : releaseCoarray s descPtr = some (empty, s')) :
    ∃ c, s.history.find? (fun c => descPtr ∈ c.coarrays) = some c ∧
      (empty = true ↔ c.coarrays.erase descPtr = []) ∧
      s' = { s with
        history := updateFirst (fun c => descPtr ∈ c.coarrays) (fun _ => released descPtr c)
          s.history } := by
  obtain ⟨c, hc, h⟩ := Option.bind_eq_some_iff.mp h
  refine ⟨c, hc, ?_⟩
  dsimp only at h
  split_ifs at h with hne hbooked
  · cases h
    have hne' : ¬ c.coarrays.erase descPtr = [] := hne
    refine ⟨iff_of_false (by simp) hne', ?_⟩
    rw [released, if_neg hne']
  · cases h
    have hempty : c.coarrays.erase descPtr = [] := not_not.mp hne
    refine ⟨iff_of_true rfl hempty, ?_⟩
    rw [released, if_pos hempty]

theorem releaseCoarray_lockstep {s s' : AllocState} (hs : Lockstep s) {descPtr : ℕ} {empty : Bool}
    (h : releaseCoarray s descPtr = some (empty, s')) : Lockstep s' := by
  obtain ⟨c, hc, -, rfl⟩ := releaseCoarray_cases h
  have hmem := List.mem_of_find?_eq_some hc
  apply hs.update hc
  · exact released_desc descPtr c
  · intro hgarbage
    rw [released_allocated]
    split_ifs with howner
    · rfl
    rw [released_isGarbage] at hgarbage
    split_ifs at hgarbage with hempty
    · -- the owner has left an empty chunk before
      cases halloc : c.allocated with
      | false => rfl
      | true =>
        have hlinked := hs.linked c hmem halloc
        have hkept := (List.mem_erase_of_ne (Ne.symm howner)).mpr hlinked
        rw [hempty] at hkept
        cases hkept
    · exact hs.garbage c hmem hgarbage
  · intro halloc
    rw [released_allocated] at halloc
    split_ifs at halloc with howner
    rw [released_owner, released_coarrays]
    exact (List.mem_erase_of_ne (Ne.symm howner)).mpr (hs.linked c hmem halloc)

theorem coarrayFindDescptr_lockstep {s : AllocState} (hs : Lockstep s) (baseAddr : ℕ) :
    Lockstep (coarrayFindDescptr s baseAddr) := by
  cases hc : s.history.find? (HistoryChunk.isFoundAt baseAddr) with
  | none =>
    rw [coarrayFindDescptr, updateFirst_of_none hc]
    exact ⟨hs.queue, hs.garbage, hs.linked, hs.freed⟩
  | some c =>
    have hmem := List.mem_of_find?_eq_some hc
    apply hs.update hc
    · rfl
    · exact hs.garbage c hmem
    · intro halloc
      exact List.mem_append_left _ (hs.linked c hmem halloc)

theorem freeResourceSet_lockstep {s : AllocState} (hs : Lockstep s) (tag : ℕ) :
    Lockstep (freeResourceSet s tag) := by
  rw [freeResourceSet]
  split_ifs with hempty
  · exact ⟨hs.queue, hs.garbage, hs.linked, hs.freed⟩
  apply Lockstep.collect
  constructor
  · show s.queue = (s.history.map _).map HistoryChunk.desc
    rw [List.map_map, hs.queue]
    apply List.map_congr_left
    intro c _
    simp only [Function.comp_apply]
    split_ifs
    · rfl
    · rfl
  · intro c' hc'
    obtain ⟨c, hc, rfl⟩ := List.mem_map.mp hc'
    split_ifs
    · intro _
      rfl
    · exact hs.garbage c hc
  · intro c' hc'
    obtain ⟨c, hc, rfl⟩ := List.mem_map.mp hc'
    split_ifs
    · intro halloc
      cases halloc
    · exact hs.linked c hc
  · exact hs.freed

theorem step_lockstep {s s' : AllocState} (hs : Lockstep s) {call : AllocCall}
    (h : call.step s = some s') : Lockstep s' := by
  cases call with
  | malloc tag orgAddr nbytes =>
    cases tag with
    | none =>
      cases h
      exact newChunk_lockstep hs none orgAddr nbytes
    | some tag =>
      rw [AllocCall.step] at h
      split_ifs at h with htag
      cases h
      exact newChunk_lockstep hs (some tag) orgAddr nbytes
  | regmem var nbytes =>
    cases h
    exact newChunk_lockstep hs none var nbytes
  | free descPtr =>
    obtain ⟨⟨empty, s₁⟩, hrelease, rfl⟩ := Option.map_eq_some_iff.mp h
    have hs₁ := releaseCoarray_lockstep hs hrelease
    cases empty with
    | false => exact hs₁
    | true => exact hs₁.collect
  | deregmem descPtr =>
    obtain ⟨⟨empty, s₁⟩, hrelease, rfl⟩ := Option.map_eq_some_iff.mp h
    exact releaseCoarray_lockstep hs hrelease
  | findDescptr baseAddr =>
    cases h
    exact coarrayFindDescptr_lockstep hs baseAddr
  | prolog =>
    cases h
    exact ⟨hs.queue, hs.garbage, hs.linked, hs.freed⟩
  | epilog tag =>
    cases tag with
    | none =>
      cases h
      exact hs
    | some tag =>
      rw [AllocCall.step] at h
      split_ifs at h with htag
      cases h
      exact freeResourceSet_lockstep hs tag

theorem initial_lockstep (orgAddr nbytes : ℕ) : Lockstep (initialState orgAddr nbytes) := by
  constructor
  · rfl
  · intro c hc hgarbage
    obtain rfl := List.mem_singleton.mp hc
    cases hgarbage
  · intro c hc _
    obtain rfl := List.mem_singleton.mp hc
    exact List.mem_singleton_self 0
  · intro e he
    cases he

theorem run_lockstep {calls : List AllocCall} {s s' : AllocState} (hs : Lockstep s)
    (h : allocRun calls s = some s') : Lockstep s' := by
  induction calls generalizing s with
  | nil =>
    cases h
    exact hs
  | cons call calls ih =>
    rw [allocRun, List.foldlM_cons] at h
    obtain ⟨s₁, hstep, hrun⟩ := Option.bind_eq_some_iff.mp h
    exact ih (step_lockstep hs hstep) hrun

/-! ## Runs without leftovers -/

def TopLive (history : List HistoryChunk) : Prop := ∀ c ∈ history.head?, c.isGarbage = false

def Complete (s : AllocState) : Prop :=
  ∀ c ∈ s.history, c.isGarbage = false → c.allocated = true

/-- The calls after which the latest chunk is to be one that is still allocated. -/
def AllocCall.Collects : AllocCall → Prop
  | .free _ | .epilog _ => True
  | _ => False

/-- A deallocation finds no descriptor of a dummy argument left, and a call that does not collect
finds no garbage on top. -/
def AllocCall.Clean (s : AllocState) : AllocCall → Prop
  | .free descPtr => ∀ c ∈ s.history.find? fun c => descPtr ∈ c.coarrays,
      (descPtr = c.owner → c.coarrays = [descPtr]) ∧ (descPtr ≠ c.owner → TopLive s.history)
  | .deregmem descPtr => ∀ c ∈ s.history.find? fun c => descPtr ∈ c.coarrays,
      descPtr = c.owner → c.coarrays = [descPtr]
  | .epilog none => TopLive s.history
  | .epilog (some tag) => (∃ c ∈ s.history, c.parent = some tag) ∨ TopLive s.history
  | _ => True

/-- Every call of the run is clean. -/
def CleanRun : List AllocCall → AllocState → Prop
  | [], _ => True
  | call :: calls, s => call.Clean s ∧ ∀ s' ∈ call.step s, CleanRun calls s'

theorem collectFrom_topLive (history : List HistoryChunk) (queue : List ℕ)
    (freed : List (HistoryChunk × Option ℕ)) : TopLive (collectFrom history queue freed).1 := by
  induction history generalizing queue freed with
  | nil =>
    intro c hc
    cases hc
  | cons c history ih =>
    rw [collectFrom]
    cases hc : c.isGarbage with
    | true => exact ih queue.tail _
    | false =>
      intro c' hc'
      obtain rfl := Option.some.inj hc'
      exact hc

theorem collectFrom_subset (history : List HistoryChunk) (queue : List ℕ)
    (freed : List (HistoryChunk × Option ℕ)) : (collectFrom history queue freed).1 ⊆ history := by
  induction history generalizing queue freed with
  | nil => exact List.Subset.refl _
  | cons c history ih =>
    rw [collectFrom]
    cases c.isGarbage with
    | true => exact List.subset_cons_of_subset c (ih queue.tail _)
    | false => exact List.Subset.refl _

theorem Complete.collect {s : AllocState} (hs : Complete s) : Complete (garbageCollect s) :=
  fun c hc => hs c (collectFrom_subset s.history s.queue s.freed hc)

theorem Complete.head_allocated {s : AllocState} (hs : Complete s) (htop : TopLive s.history)
    {c : HistoryChunk} (hc : s.history.head? = some c) : c.allocated = true :=
  hs c (List.mem_of_mem_head? hc) (htop c hc)

theorem releaseCoarray_complete {s s' : AllocState} (hs : Complete s) {descPtr : ℕ} {empty : Bool}
    (hclean : (AllocCall.deregmem descPtr).Clean s)
    (h : releaseCoarray s descPtr = some (empty, s')) : Complete s' := by
  obtain ⟨c, hc, -, rfl⟩ := releaseCoarray_cases h
  obtain ⟨l₁, l₂, hl, hupdate⟩ := updateFirst_split hc (fun _ => released descPtr c)
  intro c' hc' hlive
  have hc'' : c' ∈ l₁ ++ released descPtr c :: l₂ := by rwa [← hupdate]
  by_cases hreleased : c' = released descPtr c
  · rw [hreleased, released_isGarbage] at hlive
    split_ifs at hlive with hempty
    have howner : descPtr ≠ c.owner := by
      intro howner
      apply hempty
      rw [hclean c hc howner, List.erase_cons_head]
    rw [hreleased, released_allocated, if_neg howner]
    exact hs c (List.mem_of_find?_eq_some hc) hlive
  · apply hs c' _ hlive
    rw [hl]
    simp only [List.mem_append, List.mem_cons] at hc'' ⊢
    tauto

theorem updateFirst_topLive {history : List HistoryChunk} (h : TopLive history)
    {p : HistoryChunk → Bool} {c : HistoryChunk} (hc : history.find? p = some c)
    {f : HistoryChunk → HistoryChunk} (hf : (f c).isGarbage = c.isGarbage) :
    TopLive (updateFirst p f history) := by
  cases history with
  | nil => cases hc
  | cons b history =>
    rw [updateFirst]
    cases hb : p b with
    | true =>
      rw [List.find?_cons_of_pos hb] at hc
      obtain rfl := Option.some.inj hc
      intro c' hc'
      obtain rfl := Option.some.inj hc'
      rw [hf]
      exact h b rfl
    | false =>
      intro c' hc'
      obtain rfl := Option.some.inj hc'
      exact h b rfl

theorem free_complete {s s' : AllocState} (hs : Complete s) {descPtr : ℕ}
    (hclean : (AllocCall.free descPtr).Clean s) (h : (AllocCall.free descPtr).step s = some s') :
    Complete s' ∧ TopLive s'.history := by
  obtain ⟨⟨empty, s₁⟩, hrelease, rfl⟩ := Option.map_eq_some_iff.mp h
  have hs₁ := releaseCoarray_complete hs (fun c hc => (hclean c hc).1) hrelease
  obtain ⟨c, hc, hempty, rfl⟩ := releaseCoarray_cases hrelease
  cases empty with
  | true => exact ⟨hs₁.collect, collectFrom_topLive _ _ _⟩
  | false =>
    have hkept : ¬ c.coarrays.erase descPtr = [] := by
      intro herase
      cases hempty.mpr herase
    refine ⟨hs₁, ?_⟩
    apply updateFirst_topLive _ hc
    · rw [released_isGarbage, if_neg hkept]
    · apply (hclean c hc).2
      intro howner
      apply hkept
      rw [(hclean c hc).1 howner, List.erase_cons_head]

theorem freeResourceSet_complete {s : AllocState} (hs : Complete s) {tag : ℕ}
    (hclean : (AllocCall.epilog (some tag)).Clean s) :
    Complete (freeResourceSet s tag) ∧ TopLive (freeResourceSet s tag).history := by
  rw [freeResourceSet]
  split_ifs with hempty
  · refine ⟨hs, ?_⟩
    obtain ⟨c, hc, hparent⟩ | htop := hclean
    · have hother := List.all_eq_true.mp hempty c hc
      exact absurd hparent (of_decide_eq_true hother)
    · exact htop
  · refine ⟨?_, collectFrom_topLive _ _ _⟩
    apply Complete.collect
    intro c' hc' hlive
    obtain ⟨c, hc, rfl⟩ := List.mem_map.mp hc'
    split_ifs at hlive ⊢
    · cases hlive
    · exact hs c hc hlive

theorem step_complete {s s' : AllocState} (hs : Complete s) {call : AllocCall}
    (hclean : call.Clean s) (h : call.step s = some s') :
    Complete s' ∧ (call.Collects → TopLive s'.history) := by
  have hnew : ∀ parent orgAddr nbytes, Complete (newChunk s parent orgAddr nbytes) := by
    intro parent orgAddr nbytes c hc hlive
    obtain rfl | hc := List.mem_cons.mp hc
    · rfl
    · exact hs c hc hlive
  cases call with
  | malloc tag orgAddr nbytes =>
    refine ⟨?_, False.elim⟩
    cases tag with
    | none =>
      cases h
      exact hnew none orgAddr nbytes
    | some tag =>
      rw [AllocCall.step] at h
      split_ifs at h with htag
      cases h
      exact hnew (some tag) orgAddr nbytes
  | regmem var nbytes =>
    cases h
    exact ⟨hnew none var nbytes, False.elim⟩
  | free descPtr =>
    obtain ⟨hcomplete, htop⟩ := free_complete hs hclean h
    exact ⟨hcomplete, fun _ => htop⟩
  | deregmem descPtr =>
    obtain ⟨⟨empty, s₁⟩, hrelease, rfl⟩ := Option.map_eq_some_iff.mp h
    exact ⟨releaseCoarray_complete hs hclean hrelease, False.elim⟩
  | findDescptr baseAddr =>
    cases h
    refine ⟨?_, False.elim⟩
    cases hc : s.history.find? (HistoryChunk.isFoundAt baseAddr) with
    | none =>
      rw [coarrayFindDescptr, updateFirst_of_none hc]
      exact hs
    | some c =>
      intro c' hc' hlive
      obtain ⟨l₁, l₂, hl, hupdate⟩ := updateFirst_split hc
        (fun c => { c with coarrays := c.coarrays ++ [s.next] })
      have hc'' : c' ∈ l₁ ++ { c with coarrays := c.coarrays ++ [s.next] } :: l₂ := by
        rwa [← hupdate]
      by_cases hfound : c' = { c with coarrays := c.coarrays ++ [s.next] }
      · rw [hfound] at hlive ⊢
        exact hs c (List.mem_of_find?_eq_some hc) hlive
      · apply hs c' _ hlive
        rw [hl]
        simp only [List.mem_append, List.mem_cons] at hc'' ⊢
        tauto
  | prolog =>
    cases h
    exact ⟨hs, False.elim⟩
  | epilog tag =>
    cases tag with
    | none =>
      cases h
      exact ⟨hs, fun _ => hclean⟩
    | some tag =>
      rw [AllocCall.step] at h
      split_ifs at h with htag
      cases h
      obtain ⟨hcomplete, htop⟩ := freeResourceSet_complete hs hclean
      exact ⟨hcomplete, fun _ => htop⟩

theorem initial_complete (orgAddr nbytes : ℕ) : Complete (initialState orgAddr nbytes) := by
  intro c hc _
  obtain rfl := List.mem_singleton.mp hc
  rfl

theorem run_complete {calls : List AllocCall} {s s' : AllocState} (hs : Complete s)
    (hclean : CleanRun calls s) (h : allocRun calls s = some s') :
    Complete s' ∧ ∀ call ∈ calls.getLast?, call.Collects → TopLive s'.history := by
  induction calls generalizing s with
  | nil =>
    cases h
    refine ⟨hs, ?_⟩
    intro call hcall
    cases hcall
  | cons call calls ih =>
    rw [allocRun, List.foldlM_cons] at h
    obtain ⟨s₁, hstep, hrun⟩ := Option.bind_eq_some_iff.mp h
    obtain ⟨hs₁, htop⟩ := step_complete hs hclean.1 hstep
    cases calls with
    | nil =>
      cases hrun
      refine ⟨hs₁, ?_⟩
      intro last hlast
      obtain rfl := Option.some.inj hlast
      exact htop
    | cons call' calls =>
      obtain ⟨hcomplete, hlast⟩ := ih hs₁ (hclean.2 s₁ hstep) hrun
      refine ⟨hcomplete, ?_⟩
      rw [List.getLast?_cons_cons]
      exact hlast

/-- In every run the low-level coarray that is deallocated belongs to the chunk that is freed, and
no chunk is freed before its coarray is deallocated. After a clean run the latest chunk is one that
is still allocated. -/
theorem history_lifo (calls : List AllocCall) (orgAddr nbytes : ℕ) (s : AllocState)
    (h : allocRun calls (initialState orgAddr nbytes) = some s) :
    (∀ e ∈ s.freed, e.2 = some e.1.desc) ∧ (∀ e ∈ s.freed, e.1.allocated = false) ∧
      (CleanRun calls (initialState orgAddr nbytes) →
        ∀ call ∈ calls.getLast?, call.Collects →
          ∀ c, s.history.head? = some c → c.allocated = true) := by
  have hlockstep := run_lockstep (initial_lockstep orgAddr nbytes) h
  refine ⟨fun e he => (hlockstep.freed e he).1, fun e he => (hlockstep.freed e he).2, ?_⟩
  intro hclean call hcall hcollects c hc
  obtain ⟨hcomplete, htop⟩ := run_complete (initial_complete orgAddr nbytes) hclean h
  exact hcomplete.head_allocated (htop call hcall hcollects) hc

/-- The coarray of a procedure is deallocated at its end. -/
theorem history_lifo_epilog :
    ∃ s, allocRun [.prolog, .malloc (some 1) 4096 64, .epilog (some 1)] (initialState 1024 64) =
        some s ∧
      s.freed.length = 1 ∧ (∀ e ∈ s.freed, e.2 = some e.1.desc) ∧
      (∀ e ∈ s.freed, e.1.allocated = false) ∧
      ∀ c, s.history.head? = some c → c.allocated = true := by
  have hclean : CleanRun [.prolog, .malloc (some 1) 4096 64, .epilog (some 1)]
      (initialState 1024 64) := by
    refine ⟨trivial, ?_⟩
    intro s hs
    obtain rfl := Option.some.inj hs
    refine ⟨trivial, ?_⟩
    intro s hs
    obtain rfl := Option.some.inj hs
    exact ⟨Or.inl ⟨_, List.mem_cons_self, rfl⟩, fun _ _ => trivial⟩
  obtain ⟨hqueue, halloc, htop⟩ :=
    history_lifo [.prolog, .malloc (some 1) 4096 64, .epilog (some 1)] 1024 64 _ rfl
  exact ⟨_, rfl, rfl, hqueue, halloc, htop hclean (.epilog (some 1)) rfl trivial⟩

/-- The descriptor of a dummy argument keeps a deallocated chunk on top; the garbage of a
deregistered variable stays on top when the procedure has no other coarray. -/
theorem history_leftover :
    (∃ s c, allocRun [.malloc none 4096 64, .findDescptr 4096, .free 1] (initialState 1024 64) =
        some s ∧ s.history.head? = some c ∧ c.isGarbage = false ∧ c.allocated = false) ∧
    ∃ s c, allocRun [.regmem 4096 64, .prolog, .deregmem 1, .epilog (some 2)]
        (initialState 1024 64) = some s ∧
      s.history.head? = some c ∧ c.isGarbage = true ∧ c.allocated = false :=
  ⟨⟨_, _, rfl, rfl, rfl, rfl⟩, ⟨_, _, rfl, rfl, rfl, rfl⟩⟩

end OmniCompiler.Xmpf
