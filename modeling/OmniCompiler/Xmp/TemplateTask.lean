import OmniCompiler.Xmp.TaskDesc
import OmniCompiler.Xmp.TemplatePart

/-!
# Task descriptors of template references (`xmp_template.c`)

`_XMP_exec_task_TEMPLATE_PART` turns a reference to a template into one to its nodes and keeps the
node set in the task descriptor. The descriptor holds the bounds of the reference as `int`s.
-/
namespace OmniCompiler.Xmp

open MachineInt FoldExcept MixedRadix SmallFin

variable {d n : ℕ}

/-- What the calls read of a template: the lower bounds, which are 64-bit, and the chunks, whatever
sizes `_XMP_calc_template_size` has given them. -/
structure RefTemplate (d n : ℕ) where
  serLower : Fin d → ℤ
  chunk : Fin d → TemplateChunk n

def Template.refTemplate (t : Template d n) : RefTemplate d n :=
  ⟨fun i => (t.info i).serLower, t.chunk⟩

def RefTemplate.ownerScalar (t : RefTemplate d n) (i : Fin d) (refIndex : ℤ) : Except String ℤ :=
  chunkOwnerScalar (t.serLower i) (t.chunk i) refIndex

/-- The reference to the nodes that dimension `i` leads to. -/
def ontoNodesRef (t : RefTemplate d n) (i : Fin d) (tr : RefTriplet) : Except String NodesRef :=
  if tr.stride = 0 then .error "division by zero"
  else if countTriplet tr.lower tr.upper tr.stride = 1 then do
    let owner ← t.ownerScalar i tr.lower
    .ok ⟨false, owner + 1, owner + 1, 1⟩
  else .ok ⟨false, 1, (t.chunk i).nodesSize, 1⟩

/-- The loop of `_XMP_create_nodes_by_template_ref`: all dimensions of the nodes are shrunk at
first. -/
def ontoNodesRefs (t : RefTemplate d n) (shrink : Fin d → Bool) (refs : Fin d → RefTriplet) :
    Except String (Fin n → NodesRef) :=
  (List.finRange d).foldlM (fun onto i =>
    match shrink i, (t.chunk i).ontoNodesIndex with
    | false, some j => do
      let ref ← ontoNodesRef t i (refs i)
      .ok (Function.update onto j ref)
    | _, _ => .ok onto) fun _ => ⟨true, 0, 0, 0⟩

/-- `new_nodes_dim_size`, which the same loop fills. -/
def newNodesDimSize (t : RefTemplate d n) (shrink : Fin d → Bool)
    (refs : Fin d → RefTriplet) : List ℤ :=
  (List.finRange d).filterMap fun i =>
    match shrink i, (t.chunk i).ontoNodesIndex with
    | false, some _ =>
      if countTriplet (refs i).lower (refs i).upper (refs i).stride = 1 then some 1
      else some (t.chunk i).nodesSize
    | _, _ => none

/-- The node set that is pushed, on a process that belongs to it: its sizes and its processes. The
process has the rank `me` in the nodes of the template, or does not belong to them. -/
def createNodesByTemplateRef (t : RefTemplate d n) (desc : NodesDesc) (me : Option ℕ)
    (shrink : Fin d → Bool) (refs : Fin d → RefTriplet) :
    Except String (Option (List ℤ × List ℕ)) := do
  let onto ← ontoNodesRefs t shrink refs
  let comm ← NodesPart.execTaskNodesPart desc me (List.ofFn onto)
  .ok (comm.map fun comm => (newNodesDimSize t shrink refs, comm))

/-- The calls of `_XMP_exec_task_TEMPLATE_PART` with one task descriptor. No triplet is passed for a
shrunk dimension: its entry is what the stack holds, and is stored and compared like the others. -/
def templateTask (t : RefTemplate d n) (desc : NodesDesc) (me : Option ℕ) (shrink : Fin d → Bool) :
    Memo (Fin d → ℤ × ℤ × ℤ) (Fin d → RefTriplet) String (Option (List ℤ × List ℕ)) where
  fresh := createNodesByTemplateRef t desc me shrink
  key := fun refs i => (toInt (refs i).lower, toInt (refs i).upper, toInt (refs i).stride)
  hit := fun key refs => decide (∀ i, key i =
    (toInt (refs i).lower, toInt (refs i).upper, toInt (refs i).stride))

/-! ## References to a list of nodes by dimension -/

theorem validateRefs_ofFn {size : Fin n → ℕ} {onto : Fin n → NodesRef} {l : List NodesRef} :
    validateRefs (List.ofFn size) (List.ofFn onto) = .ok l ↔
      ∃ v : Fin n → NodesRef, l = List.ofFn v ∧ ∀ j, (onto j).validate (size j) = .ok (v j) := by
  induction n generalizing l with
  | zero =>
    simp only [List.ofFn_zero, validateRefs, Except.ok.injEq]
    constructor
    · intro h
      exact ⟨Fin.elim0, h.symm, fun j => j.elim0⟩
    · rintro ⟨v, hv, -⟩
      exact hv.symm
  | succ n ih =>
    rw [List.ofFn_succ, List.ofFn_succ, validateRefs]
    cases hfirst : (onto 0).validate (size 0) with
    | error e =>
      refine iff_of_false (by simp [bind, Except.bind]) ?_
      rintro ⟨v, -, hv⟩
      rw [hv 0] at hfirst
      cases hfirst
    | ok first =>
      cases hrest : validateRefs (List.ofFn fun j => size j.succ)
        (List.ofFn fun j => onto j.succ) with
      | error e =>
        refine iff_of_false (by simp [bind, Except.bind]) ?_
        rintro ⟨v, -, hv⟩
        have := (@ih (fun j => size j.succ) (fun j => onto j.succ) _).mpr
          ⟨fun j => v j.succ, rfl, fun j => hv j.succ⟩
        rw [hrest] at this
        cases this
      | ok rest =>
        obtain ⟨w, rfl, hw⟩ := ih.mp hrest
        simp only [bind, Except.bind, Except.ok.injEq]
        constructor
        · rintro rfl
          refine ⟨Fin.cons first w, by rw [List.ofFn_succ]; rfl, fun j => ?_⟩
          refine Fin.cases ?_ (fun j => ?_) j
          · exact hfirst
          · exact hw j
        · rintro ⟨v, rfl, hv⟩
          have h0 : first = v 0 := by
            rw [hv 0, Except.ok.injEq] at hfirst
            exact hfirst.symm
          have hsucc : w = fun j => v j.succ := by
            funext j
            have := hw j
            rw [hv j.succ, Except.ok.injEq] at this
            exact this.symm
          rw [List.ofFn_succ, h0, hsucc]

namespace NodesDesc

/-- The coordinate of a process in dimension `j`. -/
def coord (desc : NodesDesc) (q : ℕ) (j : Fin n) : ℕ := (desc.infoRank q).getD j 0

variable {desc : NodesDesc} {size : Fin n → ℕ}

theorem infoRank_eq (hsizes : desc.sizes = List.ofFn size) (q : ℕ) :
    desc.infoRank q = List.ofFn fun j : Fin n => desc.coord q j := by
  have hlen : (desc.infoRank q).length = n := by
    rw [length_infoRank, hsizes, List.length_ofFn]
  refine List.ext_getElem (by rw [hlen, List.length_ofFn]) fun k hk hk' => ?_
  simp [coord, hk]

theorem coord_lt (hsizes : desc.sizes = List.ofFn size) {q : ℕ} (hq : q < desc.commSize)
    (j : Fin n) :
    desc.coord q j < size j := by
  have hrange := inRange_infoRank hq
  rw [InRange, infoRank_eq hsizes, hsizes, List.forall₂_iff_get] at hrange
  have := hrange.2 j (by simp) (by simp)
  simpa using this

theorem exists_coord (hsizes : desc.sizes = List.ofFn size) {c : Fin n → ℕ}
    (hc : ∀ j, c j < size j) :
    ∃ q < desc.commSize, ∀ j, desc.coord q j = c j := by
  have hrange : InRange (List.ofFn c) desc.sizes := by
    rw [InRange, hsizes, List.forall₂_iff_get]
    refine ⟨by simp, fun k hk hk' => ?_⟩
    simpa using hc ⟨k, by simpa using hk⟩
  have hlt := value_lt hrange one_pos
  rw [zero_add, one_mul] at hlt
  refine ⟨_, hlt, fun j => ?_⟩
  rw [coord, infoRank, residues_value hrange]
  simp

theorem zipWith_ofFn {α β γ : Type*} (f : α → β → γ) (a : Fin n → α) (b : Fin n → β) :
    List.zipWith f (List.ofFn a) (List.ofFn b) = List.ofFn fun j => f (a j) (b j) := by
  refine List.ext_getElem (by simp) fun k hk hk' => ?_
  simp

theorem isMember_ofFn (hsizes : desc.sizes = List.ofFn size) {v : Fin n → NodesRef} {q : ℕ} :
    desc.isMember (List.ofFn v) q = true ↔ ∀ j, (v j).includes (desc.coord q j) = true := by
  rw [isMember, infoRank_eq hsizes, List.zip, zipWith_ofFn, List.all_eq_true]
  exact List.forall_mem_ofFn_iff

theorem masked_ofFn {b : Fin n → Bool} {c c' : Fin n → ℕ} :
    masked (List.ofFn b) (List.ofFn c) = masked (List.ofFn b) (List.ofFn c') ↔
      ∀ j, b j = true → c j = c' j := by
  rw [masked, masked, zipWith_ofFn, zipWith_ofFn, List.ofFn_inj, funext_iff]
  refine forall_congr' fun j => ?_
  cases b j <;> simp

/-- The process `q` is in the group of `r`: both belong to the referenced nodes, and agree in the
shrunk dimensions. -/
theorem mem_splitGroup_ofFn (hsizes : desc.sizes = List.ofFn size) {v : Fin n → NodesRef}
    (hn : NormalRefs desc.sizes (List.ofFn v)) {q r : ℕ} (hr : r < desc.commSize)
    (hm : desc.isMember (List.ofFn v) r = true) :
    q ∈ desc.splitGroup (desc.namedColor (List.ofFn v)) r ↔ q < desc.commSize ∧
      (∀ j, (v j).includes (desc.coord q j) = true) ∧
        ∀ j, (v j).shrink = true → desc.coord q j = desc.coord r j := by
  rw [splitGroup, List.mem_filter, List.mem_range, decide_eq_true_eq]
  refine and_congr_right fun hq => ?_
  rw [namedColor_eq_iff hn hq hr hm, isMember_ofFn hsizes, infoRank_eq hsizes, infoRank_eq hsizes,
    List.map_ofFn, masked_ofFn]
  rfl

theorem namedComm_of_unit {refs : List NodesRef} (hn : NormalRefs desc.sizes refs)
    (hunit : ∀ ref ∈ refs, ref.shrink = false → ref.stride = 1) {r : ℕ} (hr : r < desc.commSize)
    (hm : desc.isMember refs r = true) :
    desc.namedComm refs r = desc.splitGroup (desc.namedColor refs) r ∧
      ((desc.namedComm refs r).length : ℤ) = namedCommSize refs := by
  have hsize : ((desc.namedComm refs r).length : ℤ) = namedCommSize refs := by
    unfold namedComm
    split_ifs with hc h1
    · exact (subcommAgrees_of_unit hn hc hunit r hr hm).2
    · rw [h1]
      rfl
    · exact length_splitGroup hn hr hm
  exact ⟨namedComm_eq hn hr hm hsize, hsize⟩

end NodesDesc

theorem NodesRef.validate_unit {ref ref' : NodesRef} {size : ℕ} (h : ref.validate size = .ok ref')
    (hunit : ref.shrink = false → ref.stride = 1) :
    ref'.shrink = ref.shrink ∧ (ref'.shrink = false → ref'.stride = 1) ∧
      ref'.count = ref.count := by
  obtain ⟨-, hshrink, hstride⟩ := ref.validate_ok h
  refine ⟨hshrink, fun hs => ?_, ?_⟩
  · rw [hshrink] at hs
    rw [hstride hs, hunit hs, abs_one]
  · cases hs : ref.shrink with
    | true => rw [NodesRef.count, NodesRef.count, hshrink, hs, if_pos rfl, if_pos rfl]
    | false =>
      obtain ⟨hv, -⟩ := NodesRef.validate_unshrunk hs h
      rw [NodesRef.count, NodesRef.count, hshrink, hs, if_neg (by simp), if_neg (by simp)]
      exact countTriplet_validate hv

/-- The node set of a reference with unit strides, on a process of the nodes it refers to. -/
theorem execTaskNodesPart_unit {desc : NodesDesc} {size : Fin n → ℕ}
    (hsizes : desc.sizes = List.ofFn size) {onto v : Fin n → NodesRef}
    (hv : ∀ j, (onto j).validate (size j) = .ok (v j))
    (hunit : ∀ j, (onto j).shrink = false → (onto j).stride = 1) {r : ℕ} (hr : r < desc.commSize) :
    NodesDesc.NormalRefs desc.sizes (List.ofFn v) ∧
      NodesPart.execTaskNodesPart desc (some r) (List.ofFn onto) =
        .ok (if desc.isMember (List.ofFn v) r then
          some (desc.splitGroup (desc.namedColor (List.ofFn v)) r) else none) := by
  have hval : validateRefs desc.sizes (List.ofFn onto) = .ok (List.ofFn v) := by
    rw [hsizes]
    exact validateRefs_ofFn.mpr ⟨v, rfl, hv⟩
  obtain ⟨hn, -⟩ := validateRefs_ok (by rw [hsizes, List.length_ofFn, List.length_ofFn]) hval
  have hunit' : ∀ ref ∈ List.ofFn v, ref.shrink = false → ref.stride = 1 := by
    rw [List.forall_mem_ofFn_iff]
    exact fun j => (NodesRef.validate_unit (hv j) (hunit j)).2.1
  have hcount : NodesDesc.namedCommSize (List.ofFn onto) =
    NodesDesc.namedCommSize (List.ofFn v) := by
    rw [NodesDesc.namedCommSize_eq, NodesDesc.namedCommSize_eq, List.map_ofFn, List.map_ofFn]
    congr 2
    funext j
    exact (NodesRef.validate_unit (hv j) (hunit j)).2.2.symm
  have hzero : ((List.ofFn onto).any fun ref => !ref.shrink && ref.stride = 0) = false := by
    rw [List.any_eq_false, List.forall_mem_ofFn_iff]
    intro j
    cases hs : (onto j).shrink with
    | true => simp
    | false => simp [hunit j hs]
  refine ⟨hn, ?_⟩
  simp only [NodesPart.execTaskNodesPart, hzero, hval, bind, Except.bind,
    Bool.false_eq_true, if_false]
  by_cases hm : desc.isMember (List.ofFn v) r = true
  · obtain ⟨hcomm, hsize⟩ := NodesDesc.namedComm_of_unit hn hunit' hr hm
    rw [if_neg (fun h => h.2 hsize), if_neg (fun h => h hcount), hcomm]
  · rw [if_neg (fun h => hm h.1), if_neg (fun h => h hcount), if_neg hm, if_neg hm]

/-! ## The node set of one call -/

def RefTriplet.One (tr : RefTriplet) : Prop := countTriplet tr.lower tr.upper tr.stride = 1

/-- The dimension is not shrunk and is distributed onto dimension `j` of the nodes. -/
def Leads (t : RefTemplate d n) (shrink : Fin d → Bool) (i : Fin d) (j : Fin n) : Prop :=
  shrink i = false ∧ (t.chunk i).ontoNodesIndex = some j

/-- The nodes of a distributed template: no two dimensions are distributed onto the same one. -/
structure OntoNodes (t : RefTemplate d n) (desc : NodesDesc) (size : Fin n → ℕ) : Prop where
  sizes : desc.sizes = List.ofFn size
  size_pos : ∀ j, 0 < size j
  inj : ∀ i i' j, (t.chunk i).ontoNodesIndex = some j →
    (t.chunk i').ontoNodesIndex = some j → i = i'
  nodesSize : ∀ i j, (t.chunk i).ontoNodesIndex = some j → (t.chunk i).nodesSize = size j

/-- The call ends without an error: no stride is zero, and on a process of the nodes a single
element has an owner. -/
def AcceptsRefs (t : RefTemplate d n) (size : Fin n → ℕ) (me : Option ℕ) (shrink : Fin d → Bool)
    (refs : Fin d → RefTriplet) : Prop :=
  ∀ i j, Leads t shrink i j → (refs i).stride ≠ 0 ∧ ((refs i).One → ∃ owner : ℤ,
    t.ownerScalar i (refs i).lower = .ok owner ∧ (me ≠ none → 0 ≤ owner ∧ owner < size j))

def Selected (t : RefTemplate d n) (desc : NodesDesc) (r : ℕ) (shrink : Fin d → Bool)
    (refs : Fin d → RefTriplet) : Prop :=
  ∀ i j, Leads t shrink i j → (refs i).One →
    t.ownerScalar i (refs i).lower = .ok (desc.coord r j : ℤ)

def Belongs (t : RefTemplate d n) (desc : NodesDesc) (me : Option ℕ) (shrink : Fin d → Bool)
    (refs : Fin d → RefTriplet) : Prop :=
  ∃ r, me = some r ∧ Selected t desc r shrink refs

section OneCall

variable {t : RefTemplate d n} {desc : NodesDesc} {size : Fin n → ℕ} {me : Option ℕ} {r : ℕ}
variable {shrink : Fin d → Bool} {refs : Fin d → RefTriplet} {onto : Fin n → NodesRef}

theorem ontoNodesRefs_ok (hnodes : OntoNodes t desc size)
    (h : ontoNodesRefs t shrink refs = .ok onto) :
    (∀ i j, Leads t shrink i j → ontoNodesRef t i (refs i) = .ok (onto j)) ∧
      ∀ j, (∀ i, ¬ Leads t shrink i j) → onto j = ⟨true, 0, 0, 0⟩ := by
  have hrun := @foldlM_spec _ _ _ _ _
    (fun onto : Fin n → NodesRef => ∀ j, (∀ i, ¬ Leads t shrink i j) → onto j = ⟨true, 0, 0, 0⟩)
    (fun i onto => ∀ j, Leads t shrink i j → ontoNodesRef t i (refs i) = .ok (onto j))
    (fun i : Fin d => i) ?_ ?_ _ (by simpa using List.nodup_finRange d) _ _ (fun _ _ => rfl) h
  · exact ⟨fun i => hrun.2 i (List.mem_finRange i), hrun.1⟩
  · intro onto i onto' hinv hstep
    split at hstep
    · next j hs hj =>
      cases href : ontoNodesRef t i (refs i) with
      | error e => simp [href, bind, Except.bind] at hstep
      | ok ref =>
        obtain rfl : Function.update onto j ref = onto' := by
          simpa [href, bind, Except.bind] using hstep
        refine ⟨fun j' hno => ?_, fun j' hleads => ?_⟩
        · rw [Function.update_of_ne (fun he => hno i ⟨hs, by rw [he]; exact hj⟩)]
          exact hinv j' hno
        · obtain rfl : j = j' := by
            have := hleads.2
            rwa [hj, Option.some.injEq] at this
          rw [Function.update_self]
    · next hno =>
      cases hstep
      exact ⟨hinv, fun j hleads => absurd hleads.2 (hno j hleads.1)⟩
  · intro onto i onto' i' _ hstep hne hkeep j hleads
    split at hstep
    · next j' hs hj =>
      cases href : ontoNodesRef t i (refs i) with
      | error e => simp [href, bind, Except.bind] at hstep
      | ok ref =>
        obtain rfl : Function.update onto j' ref = onto' := by
          simpa [href, bind, Except.bind] using hstep
        rw [Function.update_of_ne (fun he =>
          hne (hnodes.inj i' i j hleads.2 (by rw [he]; exact hj)))]
        exact hkeep j hleads
    · cases hstep
      exact hkeep j hleads

theorem exists_ontoNodesRefs
    (h : ∀ i j, Leads t shrink i j → ∃ ref, ontoNodesRef t i (refs i) = .ok ref) :
    ∃ onto, ontoNodesRefs t shrink refs = .ok onto := by
  have hrun : Ensures (fun _ => True) (fun _ => False) (ontoNodesRefs t shrink refs) := by
    refine Ensures.foldlM trivial fun onto i _ _ => ?_
    split
    · next j hs hj =>
      obtain ⟨ref, href⟩ := h i j ⟨hs, hj⟩
      rw [href]
      trivial
    · trivial
  cases honto : ontoNodesRefs t shrink refs with
  | error e =>
    rw [honto] at hrun
    exact hrun.elim
  | ok onto => exact ⟨onto, rfl⟩

theorem ontoNodesRef_of_one {i : Fin d} {tr : RefTriplet} {owner : ℤ} (hs : tr.stride ≠ 0)
    (hone : tr.One) (howner : t.ownerScalar i tr.lower = .ok owner) :
    ontoNodesRef t i tr = .ok ⟨false, owner + 1, owner + 1, 1⟩ := by
  have hcount : countTriplet tr.lower tr.upper tr.stride = 1 := hone
  rw [ontoNodesRef, if_neg hs, if_pos hcount, howner]
  rfl

theorem ontoNodesRef_of_not_one {i : Fin d} {tr : RefTriplet} (hs : tr.stride ≠ 0)
    (hone : ¬ tr.One) :
    ontoNodesRef t i tr = .ok ⟨false, 1, (t.chunk i).nodesSize, 1⟩ := by
  have hcount : ¬ countTriplet tr.lower tr.upper tr.stride = 1 := hone
  rw [ontoNodesRef, if_neg hs, if_neg hcount]

theorem ontoNodesRef_eq_ok {i : Fin d} {tr : RefTriplet} {ref : NodesRef}
    (h : ontoNodesRef t i tr = .ok ref) : tr.stride ≠ 0 ∧ ref.shrink = false ∧ ref.stride = 1 ∧
      (tr.One → ∃ owner, t.ownerScalar i tr.lower = .ok owner ∧ ref.lower = owner + 1) := by
  unfold ontoNodesRef at h
  split_ifs at h with hs hone
  · cases howner : t.ownerScalar i tr.lower with
    | error e => simp [howner, bind, Except.bind] at h
    | ok owner =>
      obtain rfl : (⟨false, owner + 1, owner + 1, 1⟩ : NodesRef) = ref := by
        simpa [howner, bind, Except.bind] using h
      exact ⟨hs, rfl, rfl, fun _ => ⟨owner, rfl, rfl⟩⟩
  · cases h
    exact ⟨hs, rfl, rfl, fun h => absurd h hone⟩

theorem validate_first_last {ref : NodesRef} {l u : ℤ} {size : ℕ} (href : ref = ⟨false, l, u, 1⟩)
    (h1 : 1 ≤ l) (h2 : l ≤ u) (h3 : u ≤ size) :
    ref.validate size = .ok ⟨false, l - 1, u - 1, 1⟩ := by
  have hv : validateNodesRef l u 1 size = .ok (l - 1, u - 1, 1) := by
    simp only [validateNodesRef, one_ne_zero, if_false, zero_lt_one, gt_iff_lt, if_true,
      Int.tmod_one,
      sub_zero]
    rw [if_neg (by omega), if_neg (by omega), if_neg (by omega)]
  rw [href, NodesRef.validate, if_neg (by simp), hv]
  rfl

theorem includes_unit {l u : ℤ} {x : ℕ} :
    (⟨false, l, u, 1⟩ : NodesRef).includes x = true ↔ l ≤ x ∧ x ≤ u := by
  simp only [NodesRef.includes, checkNodesRefInclusion, Bool.false_or, Int.tmod_one, ne_eq,
    not_true_eq_false, or_false, decide_eq_true_eq]
  omega

theorem AcceptsRefs.exists_validated (hnodes : OntoNodes t desc size)
    (hacc : AcceptsRefs t size (some r) shrink refs) : ∃ onto v : Fin n → NodesRef,
      ontoNodesRefs t shrink refs = .ok onto ∧ (∀ j, (onto j).validate (size j) = .ok (v j)) ∧
      (∀ j, (onto j).shrink = false → (onto j).stride = 1) ∧
      (∀ j, (v j).shrink = true ↔ ∀ i, ¬ Leads t shrink i j) ∧
      ∀ i j, Leads t shrink i j → ∀ x < size j, ((v j).includes x = true ↔
        ((refs i).One → t.ownerScalar i (refs i).lower = .ok (x : ℤ))) := by
  have hstep : ∀ i j, Leads t shrink i j →
    ∃ ref ref' : NodesRef, ontoNodesRef t i (refs i) = .ok ref ∧
      ref.shrink = false ∧ ref.stride = 1 ∧ ref.validate (size j) = .ok ref' ∧ ref'.shrink = false ∧
        ∀ x < size j, (ref'.includes x = true ↔
          ((refs i).One → t.ownerScalar i (refs i).lower = .ok (x : ℤ))) := by
    intro i j hleads
    obtain ⟨hs, hone⟩ := hacc i j hleads
    by_cases h : (refs i).One
    · obtain ⟨owner, howner, hrange⟩ := hone h
      obtain ⟨h0, hlt⟩ := hrange (by simp)
      refine ⟨_, _, ontoNodesRef_of_one hs h howner, rfl, rfl,
        validate_first_last rfl (by omega) le_rfl (by omega), rfl, fun x hx => ?_⟩
      rw [includes_unit, imp_iff_right h, howner, Except.ok.injEq]
      omega
    · have hsize := hnodes.nodesSize i j hleads.2
      have hpos := hnodes.size_pos j
      refine ⟨_, _, ontoNodesRef_of_not_one hs h, rfl, rfl,
        validate_first_last rfl le_rfl (by omega) (by omega), rfl, fun x hx => ?_⟩
      rw [includes_unit]
      refine iff_of_true (by omega) fun h' => absurd h' h
  obtain ⟨onto, honto⟩ := exists_ontoNodesRefs fun i j hleads => by
    obtain ⟨ref, -, href, -⟩ := hstep i j hleads
    exact ⟨ref, href⟩
  obtain ⟨hled, hshrunk⟩ := ontoNodesRefs_ok hnodes honto
  have hdim : ∀ j, ∃ ref' : NodesRef, (onto j).validate (size j) = .ok ref' ∧
      ((onto j).shrink = false → (onto j).stride = 1) ∧
      (ref'.shrink = true ↔ ∀ i, ¬ Leads t shrink i j) ∧
      ∀ i, Leads t shrink i j → ∀ x < size j, (ref'.includes x = true ↔
        ((refs i).One → t.ownerScalar i (refs i).lower = .ok (x : ℤ))) := by
    intro j
    by_cases hex : ∃ i, Leads t shrink i j
    · obtain ⟨i, hleads⟩ := hex
      obtain ⟨ref, ref', href, hs, hst, hval, hs', hinc⟩ := hstep i j hleads
      obtain rfl : ref = onto j := by
        have := hled i j hleads
        rwa [href, Except.ok.injEq] at this
      refine ⟨ref', hval, fun _ => hst, iff_of_false (by simp [hs']) fun h => h i hleads, ?_⟩
      intro i' hleads'
      obtain rfl := hnodes.inj i i' j hleads.2 hleads'.2
      exact hinc
    · rw [not_exists] at hex
      have hj := hshrunk j hex
      refine ⟨onto j, by rw [hj]; rfl, by simp [hj], iff_of_true (by simp [hj]) hex, ?_⟩
      exact fun i hleads => absurd hleads (hex i)
  choose v hv hunit hshrink hinc using hdim
  exact ⟨onto, v, honto, hv, hunit, hshrink, fun i j hleads => hinc j i hleads⟩

theorem selected_iff (hnodes : OntoNodes t desc size) {v : Fin n → NodesRef}
    (hshrink : ∀ j, (v j).shrink = true ↔ ∀ i, ¬ Leads t shrink i j)
    (hinc : ∀ i j, Leads t shrink i j → ∀ x < size j, ((v j).includes x = true ↔
      ((refs i).One → t.ownerScalar i (refs i).lower = .ok (x : ℤ))))
    {q : ℕ} (hq : q < desc.commSize) :
    (∀ j, (v j).includes (desc.coord q j) = true) ↔ Selected t desc q shrink refs := by
  have hlt : ∀ j, desc.coord q j < size j := NodesDesc.coord_lt hnodes.sizes hq
  constructor
  · exact fun h i j hleads => (hinc i j hleads _ (hlt j)).mp (h j)
  · intro h j
    by_cases hex : ∃ i, Leads t shrink i j
    · obtain ⟨i, hleads⟩ := hex
      exact (hinc i j hleads _ (hlt j)).mpr (h i j hleads)
    · have hs := (hshrink j).mpr (not_exists.mp hex)
      rw [NodesRef.includes, hs, Bool.true_or]

/-- On a process of the node set, the call gives the processes that agree with it in every dimension
of the nodes that is shrunk or belongs to a single element. -/
theorem created_of_selected (hnodes : OntoNodes t desc size)
    (hacc : AcceptsRefs t size (some r) shrink refs) (hr : r < desc.commSize)
    (hsel : Selected t desc r shrink refs) : ∃ group : List ℕ, group.Pairwise (· < ·) ∧
      (∀ q, q ∈ group ↔ q < desc.commSize ∧ ∀ j, (∀ i, Leads t shrink i j → (refs i).One) →
        desc.coord q j = desc.coord r j) ∧
      createNodesByTemplateRef t desc (some r) shrink refs =
        .ok (some (newNodesDimSize t shrink refs, group)) := by
  obtain ⟨onto, v, honto, hv, hunit, hshrink, hinc⟩ := hacc.exists_validated hnodes
  obtain ⟨hn, hexec⟩ := execTaskNodesPart_unit hnodes.sizes hv hunit hr
  have hm : desc.isMember (List.ofFn v) r = true := by
    rw [NodesDesc.isMember_ofFn hnodes.sizes]
    exact (selected_iff hnodes hshrink hinc hr).mpr hsel
  refine ⟨desc.splitGroup (desc.namedColor (List.ofFn v)) r, ?_, fun q => ?_, ?_⟩
  · exact List.pairwise_lt_range.filter _
  · rw [NodesDesc.mem_splitGroup_ofFn hnodes.sizes hn hr hm]
    refine and_congr_right fun hq => ?_
    rw [selected_iff hnodes hshrink hinc hq]
    constructor
    · rintro ⟨hselq, hagree⟩ j hone
      by_cases hex : ∃ i, Leads t shrink i j
      · obtain ⟨i, hleads⟩ := hex
        have hq' := hselq i j hleads (hone i hleads)
        have hr' := hsel i j hleads (hone i hleads)
        rw [hq', Except.ok.injEq] at hr'
        exact_mod_cast hr'
      · exact hagree j ((hshrink j).mpr (not_exists.mp hex))
    · intro hall
      refine ⟨fun i j hleads hone => ?_, fun j hs => ?_⟩
      · rw [hall j fun i' hleads' => hnodes.inj i i' j hleads.2 hleads'.2 ▸ hone]
        exact hsel i j hleads hone
      · exact hall j fun i hleads => absurd hleads ((hshrink j).mp hs i)
  · rw [createNodesByTemplateRef, honto]
    simp only [bind, Except.bind, hexec, hm, if_true]
    rfl

theorem created_of_not_belongs (hnodes : OntoNodes t desc size)
    (hacc : AcceptsRefs t size me shrink refs) (hme : ∀ r, me = some r → r < desc.commSize)
    (hno : ¬ Belongs t desc me shrink refs) :
    createNodesByTemplateRef t desc me shrink refs = .ok none := by
  cases me with
  | none =>
    have hstep : ∀ i j, Leads t shrink i j → ∃ ref, ontoNodesRef t i (refs i) = .ok ref := by
      intro i j hleads
      obtain ⟨hs, hone⟩ := hacc i j hleads
      by_cases h : (refs i).One
      · obtain ⟨owner, howner, -⟩ := hone h
        exact ⟨_, ontoNodesRef_of_one hs h howner⟩
      · exact ⟨_, ontoNodesRef_of_not_one hs h⟩
    obtain ⟨onto, honto⟩ := exists_ontoNodesRefs hstep
    obtain ⟨hled, hshrunk⟩ := ontoNodesRefs_ok hnodes honto
    have hzero : ((List.ofFn onto).any fun ref => !ref.shrink && ref.stride = 0) = false := by
      rw [List.any_eq_false, List.forall_mem_ofFn_iff]
      intro j
      by_cases hex : ∃ i, Leads t shrink i j
      · obtain ⟨i, hleads⟩ := hex
        obtain ⟨-, -, hst, -⟩ := ontoNodesRef_eq_ok (hled i j hleads)
        simp [hst]
      · simp [hshrunk j (not_exists.mp hex)]
    rw [createNodesByTemplateRef, honto]
    simp only [bind, Except.bind, NodesPart.execTaskNodesPart, hzero]
    rfl
  | some r =>
    have hr := hme r rfl
    obtain ⟨onto, v, honto, hv, hunit, hshrink, hinc⟩ := hacc.exists_validated hnodes
    obtain ⟨hn, hexec⟩ := execTaskNodesPart_unit hnodes.sizes hv hunit hr
    have hm : ¬ desc.isMember (List.ofFn v) r = true := by
      rw [NodesDesc.isMember_ofFn hnodes.sizes, selected_iff hnodes hshrink hinc hr]
      exact fun hsel => hno ⟨r, rfl, hsel⟩
    rw [createNodesByTemplateRef, honto]
    simp only [bind, Except.bind, hexec, if_neg hm]
    rfl

/-- A call ends without an error exactly when its references are accepted. -/
theorem acceptsRefs_iff (hnodes : OntoNodes t desc size)
    (hme : ∀ r, me = some r → r < desc.commSize) :
    AcceptsRefs t size me shrink refs ↔
      ∃ o, createNodesByTemplateRef t desc me shrink refs = .ok o := by
  constructor
  · intro hacc
    by_cases hb : Belongs t desc me shrink refs
    · obtain ⟨r, rfl, hsel⟩ := hb
      obtain ⟨group, -, -, hok⟩ := created_of_selected hnodes hacc (hme r rfl) hsel
      exact ⟨_, hok⟩
    · exact ⟨_, created_of_not_belongs hnodes hacc hme hb⟩
  · rintro ⟨o, ho⟩ i j hleads
    rw [createNodesByTemplateRef] at ho
    cases honto : ontoNodesRefs t shrink refs with
    | error e => simp [honto, bind, Except.bind] at ho
    | ok onto =>
      obtain ⟨hled, -⟩ := ontoNodesRefs_ok hnodes honto
      obtain ⟨hs, hshrink, hst, hone⟩ := ontoNodesRef_eq_ok (hled i j hleads)
      refine ⟨hs, fun h => ?_⟩
      obtain ⟨owner, howner, hlower⟩ := hone h
      refine ⟨owner, howner, fun hsome => ?_⟩
      cases me with
      | none => exact absurd rfl hsome
      | some r =>
        have hval : ∃ l, validateRefs desc.sizes (List.ofFn onto) = .ok l := by
          cases hv : validateRefs desc.sizes (List.ofFn onto) with
          | ok l => exact ⟨l, rfl⟩
          | error e =>
            simp only [honto, bind, Except.bind, NodesPart.execTaskNodesPart, hv] at ho
            split_ifs at ho
        obtain ⟨l, hl⟩ := hval
        rw [hnodes.sizes] at hl
        obtain ⟨v, -, hv⟩ := validateRefs_ofFn.mp hl
        obtain ⟨hv', hs'⟩ := NodesRef.validate_unshrunk hshrink (hv j)
        have hnorm := ((onto j).validate_ok (hv j)).1 hs'
        have h0 := hnorm.lower_nonneg
        have hle := hnorm.lower_le
        have hlt := hnorm.upper_lt
        have hlow : (v j).lower = owner := by
          simp only [validateNodesRef, hst] at hv'
          split_ifs at hv' <;> simp_all
        omega

end OneCall

/-! ## Two calls with one descriptor -/

/-- The entry filled by `p` serves the call `c`, whose own references are accepted: the process
belongs to both node sets or to none, and if it does, the two calls have single elements in the same
dimensions, nodes dimensions of size one apart. -/
def ServesRefs (t : RefTemplate d n) (desc : NodesDesc) (size : Fin n → ℕ) (me : Option ℕ)
    (shrink : Fin d → Bool) (p c : Fin d → RefTriplet) : Prop :=
  AcceptsRefs t size me shrink c ∧ (Belongs t desc me shrink p ↔ Belongs t desc me shrink c) ∧
    (Belongs t desc me shrink c → ∀ i j, Leads t shrink i j →
      size j = 1 ∨ ((p i).One ↔ (c i).One))

section TwoCalls

variable {t : RefTemplate d n} {desc : NodesDesc} {size : Fin n → ℕ} {me : Option ℕ} {r : ℕ}
variable {shrink : Fin d → Bool} {p c : Fin d → RefTriplet}

/-- A process that agrees with `r` except in a dimension where `c` takes all nodes tells the node
sets apart, if `p` takes a single one there. -/
theorem one_of_mem_imp (hnodes : OntoNodes t desc size) (hr : r < desc.commSize)
    {i : Fin d} {j : Fin n}
    (hleads : Leads t shrink i j) (hsize : size j ≠ 1)
    (h : ∀ q < desc.commSize,
      (∀ j, (∀ i, Leads t shrink i j → (c i).One) → desc.coord q j = desc.coord r j) →
      ∀ j, (∀ i, Leads t shrink i j → (p i).One) → desc.coord q j = desc.coord r j)
    (hp : (p i).One) : (c i).One := by
  by_contra hc
  have hlt : ∀ j, desc.coord r j < size j := NodesDesc.coord_lt hnodes.sizes hr
  obtain ⟨x, hx, hne⟩ : ∃ x < size j, x ≠ desc.coord r j := by
    have := hlt j
    by_cases h0 : desc.coord r j = 0
    · exact ⟨1, by omega, by omega⟩
    · exact ⟨0, by omega, Ne.symm h0⟩
  obtain ⟨q, hq, hcoord⟩ := NodesDesc.exists_coord hnodes.sizes
    (c := Function.update (fun j => desc.coord r j) j x) fun j' => by
      by_cases hj : j' = j
      · rw [hj, Function.update_self]
        exact hx
      · rw [Function.update_of_ne hj]
        exact hlt j'
  have hagree := h q hq (fun j' hone => by
    by_cases hj : j' = j
    · exact absurd (hone i (hj ▸ hleads)) hc
    · rw [hcoord, Function.update_of_ne hj]) j
        fun i' hleads' => hnodes.inj i i' j hleads.2 hleads'.2 ▸ hp
  rw [hcoord, Function.update_self] at hagree
  exact hne hagree

/-- Two groups with the process `r` are the same when the single elements are in the same
dimensions. -/
theorem mem_group_iff (hnodes : OntoNodes t desc size) (hr : r < desc.commSize) :
    (∀ q < desc.commSize,
      ((∀ j, (∀ i, Leads t shrink i j → (p i).One) → desc.coord q j = desc.coord r j) ↔
        ∀ j, (∀ i, Leads t shrink i j → (c i).One) → desc.coord q j = desc.coord r j)) ↔
      ∀ i j, Leads t shrink i j → size j = 1 ∨ ((p i).One ↔ (c i).One) := by
  constructor
  · intro h i j hleads
    by_cases hsize : size j = 1
    · exact Or.inl hsize
    · refine Or.inr ⟨?_, ?_⟩
      · exact one_of_mem_imp hnodes hr hleads hsize fun q hq => (h q hq).mpr
      · exact one_of_mem_imp hnodes hr hleads hsize fun q hq => (h q hq).mp
  · intro h q hq
    refine forall_congr' fun j => ?_
    by_cases hsize : size j = 1
    · have hq' := NodesDesc.coord_lt hnodes.sizes hq j
      have hr' := NodesDesc.coord_lt hnodes.sizes hr j
      have heq : desc.coord q j = desc.coord r j := by omega
      exact iff_of_true (fun _ => heq) fun _ => heq
    · refine imp_congr_left (forall₂_congr fun i hleads => ?_)
      exact (h i j hleads).resolve_left hsize

theorem newNodesDimSize_eq (hnodes : OntoNodes t desc size)
    (h : ∀ i j, Leads t shrink i j → size j = 1 ∨ ((p i).One ↔ (c i).One)) :
    newNodesDimSize t shrink p = newNodesDimSize t shrink c := by
  refine List.filterMap_congr fun i _ => ?_
  split
  · next j hs hj =>
    rcases h i j ⟨hs, hj⟩ with hsize | hone
    · rw [hnodes.nodesSize i j hj, hsize]
      simp
    · unfold RefTriplet.One at hone
      simp only [hone]
  · rfl

theorem servesRefs_iff (hnodes : OntoNodes t desc size) (hme : ∀ r, me = some r → r < desc.commSize)
    (hp : AcceptsRefs t size me shrink p) : ServesRefs t desc size me shrink p c ↔
      createNodesByTemplateRef t desc me shrink c =
        createNodesByTemplateRef t desc me shrink p := by
  constructor
  · rintro ⟨hc, hboth, hsame⟩
    by_cases hb : Belongs t desc me shrink c
    · have hdims := hsame hb
      obtain ⟨r, rfl, hselc⟩ := id hb
      obtain ⟨r', hr', hselp⟩ := hboth.mpr hb
      rw [Option.some.injEq] at hr'
      subst hr'
      obtain ⟨group, hsort, hmem, hok⟩ := created_of_selected hnodes hc (hme r rfl) hselc
      obtain ⟨group', hsort', hmem', hok'⟩ := created_of_selected hnodes hp (hme r rfl) hselp
      have hgroup : group = group' := by
        refine List.Pairwise.eq_of_mem_iff hsort hsort' fun q => ?_
        rw [hmem, hmem']
        exact and_congr_right fun hq => ((mem_group_iff hnodes (hme r rfl)).mpr hdims q hq).symm
      rw [hok, hok', hgroup, newNodesDimSize_eq hnodes hdims]
    · rw [created_of_not_belongs hnodes hc hme hb,
        created_of_not_belongs hnodes hp hme (mt hboth.mp hb)]
  · intro heq
    have hc : AcceptsRefs t size me shrink c := by
      obtain ⟨o, ho⟩ := (acceptsRefs_iff hnodes hme).mp hp
      exact (acceptsRefs_iff hnodes hme).mpr ⟨o, heq.trans ho⟩
    by_cases hbc : Belongs t desc me shrink c <;> by_cases hbp : Belongs t desc me shrink p
    · refine ⟨hc, iff_of_true hbp hbc, fun _ => ?_⟩
      obtain ⟨r, rfl, hselc⟩ := hbc
      obtain ⟨r', hr', hselp⟩ := hbp
      rw [Option.some.injEq] at hr'
      subst hr'
      obtain ⟨group, -, hmem, hok⟩ := created_of_selected hnodes hc (hme r rfl) hselc
      obtain ⟨group', -, hmem', hok'⟩ := created_of_selected hnodes hp (hme r rfl) hselp
      rw [hok, hok', Except.ok.injEq, Option.some.injEq, Prod.mk.injEq] at heq
      refine (mem_group_iff hnodes (hme r rfl)).mp fun q hq => ?_
      have hboth : q ∈ group' ↔ q ∈ group := by rw [heq.2]
      rw [hmem, hmem', and_iff_right hq, and_iff_right hq] at hboth
      exact hboth
    · obtain ⟨r, rfl, hselc⟩ := hbc
      obtain ⟨group, -, -, hok⟩ := created_of_selected hnodes hc (hme r rfl) hselc
      rw [hok, created_of_not_belongs hnodes hp hme hbp] at heq
      cases heq
    · obtain ⟨r, rfl, hselp⟩ := hbp
      obtain ⟨group, -, -, hok⟩ := created_of_selected hnodes hp (hme r rfl) hselp
      rw [hok, created_of_not_belongs hnodes hc hme hbc] at heq
      cases heq
    · exact ⟨hc, iff_of_false hbp hbc, fun hb => absurd hb hbc⟩

end TwoCalls

/-! ## Distributed templates -/

theorem DistFormats.ontoNodes {t t' : Template d n} {nodes : Nodes n}
    {fresh : Fin d → TemplateChunk n}
    {formats : DistFormats d n} {desc : NodesDesc}
    (h : distTemplates (initTemplateChunk t nodes fresh) formats.calls = .ok t')
    (hdesc : desc.sizes = List.ofFn fun j => (nodes.info j).size)
    (hinj : ∀ i i', formats.fmt i ≠ .duplication → formats.fmt i' ≠ .duplication →
      formats.nodesIndex i = formats.nodesIndex i' → i = i') :
    OntoNodes t'.refTemplate desc fun j => (nodes.info j).size := by
  have hchunk : ∀ i j, (t'.chunk i).ontoNodesIndex = some j → formats.fmt i ≠ .duplication ∧
      formats.nodesIndex i = j ∧ (t'.chunk i).ontoNodesInfo = some (nodes.info j) := by
    intro i j hj
    obtain ⟨u, u', -, rfl, hok, hchunk⟩ := formats.chunk_written h i
    rw [hchunk] at hj ⊢
    cases hfmt : formats.fmt i with
    | duplication =>
      rw [hfmt] at hok
      cases hok
      simp [distTemplateDuplication] at hj
    | block =>
      rw [hfmt] at hok
      cases hok
      simp only [distTemplateBlock, Template.setChunk_chunk, Option.some.injEq] at hj ⊢
      simp [hj]
    | cyclic =>
      rw [hfmt] at hok
      cases hok
      simp only [distTemplateCyclic, distTemplateCyclicWidth, Template.setChunk_chunk,
        Option.some.injEq] at hj ⊢
      simp [hj]
    | blockCyclic w =>
      rw [hfmt] at hok
      cases hok
      simp only [distTemplateBlockCyclic, distTemplateCyclicWidth, Template.setChunk_chunk,
        Option.some.injEq] at hj ⊢
      simp [hj]
    | gblock m =>
      cases m with
      | none => exact absurd hfmt (formats.mapping_given i)
      | some m =>
        rw [hfmt] at hok
        simp only [distTemplate, distTemplateGblock] at hok
        split_ifs at hok
        cases hok
        simp only [Template.setChunk_chunk, Option.some.injEq] at hj ⊢
        simp [hj]
  refine ⟨hdesc, fun j => (nodes.info j).rank.pos, fun i i' j hi hi' => ?_, fun i j hi => ?_⟩
  · obtain ⟨hfmt, hidx, -⟩ := hchunk i j hi
    obtain ⟨hfmt', hidx', -⟩ := hchunk i' j hi'
    exact hinj i i' hfmt hfmt' (hidx.trans hidx'.symm)
  · rw [TemplateChunk.nodesSize, show (t'.refTemplate.chunk i).ontoNodesInfo = _ from
      (hchunk i j hi).2.2]
    rfl

/-- A task descriptor of a reference to a distributed template is transparent as long as every entry
that is found serves the call. -/
theorem templateTask_transparent_iff (t : RefTemplate d n) (desc : NodesDesc) (size : Fin n → ℕ)
    (hnodes : OntoNodes t desc size) (me : Option ℕ) (hme : ∀ r, me = some r → r < desc.commSize)
    (shrink : Fin d → Bool) (calls : List (Fin d → RefTriplet)) :
    (templateTask t desc me shrink).Transparent none calls ↔
      (templateTask t desc me shrink).AllHits (AcceptsRefs t size me shrink)
        (ServesRefs t desc size me shrink) none calls :=
  Memo.transparent_iff (fun _ => acceptsRefs_iff hnodes hme)
    (fun _ _ hp _ => servesRefs_iff hnodes hme hp) calls

/-- All nine elements of the template, and the fourth one twice. -/
def repeatedCalls : List (Fin 1 → RefTriplet) :=
  [fun _ => ⟨0, 8, 1⟩, fun _ => ⟨4, 4, 1⟩, fun _ => ⟨4, 4, 1⟩]

theorem secondBlock_ontoNodes :
    OntoNodes secondBlock.refTemplate ⟨0, .entire, [3]⟩ fun j => (secondNode.info j).size :=
  DistFormats.ontoNodes
    (show distTemplates (initTemplateChunk secondTemplate secondNode fun _ => default)
      blockFormats.calls = .ok secondBlock from rfl)
    rfl fun i i' _ _ _ => Subsingleton.elim i i'

theorem secondBlock_owner : secondBlock.refTemplate.ownerScalar 0 4 = .ok 1 :=
  (distTemplateBlock_chunk (initTemplateChunk secondTemplate secondNode fun _ => default) 0 0
    rfl rfl).ownerScalar ⟨by decide, by decide⟩

theorem templateTask_transparent_repeated :
    (templateTask secondBlock.refTemplate ⟨0, .entire, [3]⟩ (some 1) fun _ =>
      false).Transparent none
      repeatedCalls := by
  refine (templateTask_transparent_iff secondBlock.refTemplate ⟨0, .entire, [3]⟩ _
    secondBlock_ontoNodes (some 1) (by simp [NodesDesc.commSize]) (fun _ => false)
      repeatedCalls).mpr ?_
  have hacc : AcceptsRefs secondBlock.refTemplate (fun j => (secondNode.info j).size) (some 1)
      (fun _ => false) fun _ => ⟨4, 4, 1⟩ := by
    intro i j _
    obtain rfl : i = 0 := Subsingleton.elim i 0
    obtain rfl : j = 0 := Subsingleton.elim j 0
    exact ⟨by decide, fun _ => ⟨1, secondBlock_owner, fun _ => by decide⟩⟩
  exact fun _ _ => ⟨⟨hacc, Iff.rfl, fun _ _ _ _ => Or.inr Iff.rfl⟩, trivial⟩

/-- The strides `1` and `2 ^ 32 + 1` are the same for the descriptor: the third node is told to
execute a task on the single element `4` of the second. -/
theorem templateTask_truncated :
    distTemplates (initTemplateChunk secondTemplate secondNode fun _ => default)
      blockFormats.calls = .ok secondBlock ∧
    ¬ (templateTask secondBlock.refTemplate ⟨0, .entire, [3]⟩ (some 2) fun _ =>
      false).Transparent none
      [fun _ => ⟨4, 8, 1⟩, fun _ => ⟨4, 8, 2 ^ 32 + 1⟩] := by
  refine ⟨rfl, fun h => ?_⟩
  have hsecond := (h.2 (some ([3], [0, 1, 2]), _, some ([3], [0, 1, 2])) rfl).1
  revert hsecond
  decide

end OmniCompiler.Xmp
