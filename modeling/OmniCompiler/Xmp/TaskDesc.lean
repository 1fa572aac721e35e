import OmniCompiler.Arithmetic.Memo
import OmniCompiler.Xmp.NodesNamed

/-!
# Task descriptors (`xmp_nodes.c`)

A `task` directive keeps the node set of its last execution. Whether it is used again is decided
by comparing the reference with the one in the descriptor, which is meant to be counted from zero.
-/
namespace OmniCompiler.Xmp

/-- `_XMP_compare_task_exec_cond` for one and the same node set. -/
def compareTaskExecCond (desc refs : List NodesRef) : Bool :=
  (desc.zip refs).all fun d =>
    (d.1.stride = -1 && d.2.stride = -1) ||
      (d.1.lower = d.2.lower - 1 && d.1.upper = d.2.upper - 1 && d.1.stride = d.2.stride)

/-! ## References to the processes by number -/

/-- The world ranks of the executing nodes, which the calling process belongs to. -/
structure ExecNodes (worldSize me : ℕ) where
  ranks : List ℕ
  sorted : ranks.Pairwise (· < ·)
  lt : ∀ r ∈ ranks, r < worldSize
  mem : me ∈ ranks

/-- A call of `_XMP_exec_task_GLOBAL_PART` by the process `me`. -/
structure GlobalPart (worldSize me : ℕ) where
  exec : ExecNodes worldSize me
  lower : ℤ
  upper : ℤ
  stride : ℤ

namespace GlobalPart

variable {worldSize me : ℕ}

def ref (c : GlobalPart worldSize me) : NodesRef := ⟨false, c.lower, c.upper, c.stride⟩

/-- The call with a new task descriptor: the node set of `_XMP_init_nodes_STATIC_NODES_NUMBER`,
which is pushed on a process that belongs to it. -/
def execTaskGlobalPart (c : GlobalPart worldSize me) : Except String (Option (List ℕ)) :=
  if c.stride = 0 then .error "division by zero"
  else
    let dimSize := countTriplet c.lower c.upper c.stride
    if dimSize ≤ 0 then .error "<nodes-size> should be less or equal to zero"
    else do
      let ref ← c.ref.validate worldSize
      let comm := c.exec.ranks.filter fun q => ref.includes q = ref.includes me
      let commSize := countTriplet ref.lower ref.upper ref.stride
      if ref.includes me = true ∧ (comm.length : ℤ) ≠ commSize then
        .error "cannot create a new nodes descriptor: communicator size is not correct"
      else if dimSize ≠ commSize then .error "incorrect communicator size"
      else .ok (if ref.includes me then some comm else none)

/-- The descriptor keeps the reference as it is passed. -/
def memo (worldSize me : ℕ) :
    Memo (List NodesRef) (GlobalPart worldSize me) String (Option (List ℕ)) where
  fresh := execTaskGlobalPart
  key := fun c => [c.ref]
  hit := fun desc c => compareTaskExecCond desc [c.ref]

/-- The process `r` is one of the referenced. -/
def Includes (c : GlobalPart worldSize me) (r : ℕ) : Prop :=
  ∃ ref, c.ref.validate worldSize = .ok ref ∧ ref.includes r = true

/-- The reference is in bounds, and on a process that belongs to it all its processes execute the
call. -/
def Accepts (c : GlobalPart worldSize me) : Prop :=
  (∃ ref, c.ref.validate worldSize = .ok ref) ∧
    (c.Includes me → ∀ r < worldSize, c.Includes r → r ∈ c.exec.ranks)

/-- The entry filled by `p` serves the call `c`: it is for the same reference, or the process
belongs to neither. -/
def Serves (p c : GlobalPart worldSize me) : Prop :=
  c.Accepts ∧ (c.ref = p.ref ∨ ¬ p.Includes me ∧ ¬ c.Includes me)

end GlobalPart

/-! ## References to a node set -/

/-- A call of `_XMP_exec_task_NODES_PART`: one triplet for each dimension. -/
structure NodesPart (dim : ℕ) where
  triplets : List (ℤ × ℤ × ℤ)
  length_eq : triplets.length = dim

namespace NodesPart

/-- The reference that the call builds; the triplet of a shrunk dimension is not passed. -/
def refs (shrink : List Bool) (c : NodesPart shrink.length) : List NodesRef :=
  List.zipWith (fun b t => if b then ⟨true, 0, 0, -1⟩ else ⟨false, t.1, t.2.1, t.2.2⟩)
    shrink c.triplets

/-- The call with a new task descriptor, on the process with rank `me` in the node set or on one
that does not belong to it. -/
def execTaskNodesPart (n : NodesDesc) (me : Option ℕ) (refs : List NodesRef) :
    Except String (Option (List ℕ)) :=
  if refs.any fun ref => !ref.shrink && ref.stride = 0 then .error "division by zero"
  else
    match me with
    | none => .ok none
    | some r => do
      let refs' ← validateRefs n.sizes refs
      let comm := n.namedComm refs' r
      let commSize := NodesDesc.namedCommSize refs'
      if n.isMember refs' r = true ∧ (comm.length : ℤ) ≠ commSize then
        .error "cannot create a new nodes descriptor: communicator size is not correct"
      else if NodesDesc.namedCommSize refs ≠ commSize then .error "incorrect communicator size"
      else .ok (if n.isMember refs' r then some comm else none)

/-- The descriptor keeps the reference as the call leaves it: validated, on a process of the node
set. -/
def storedRefs (n : NodesDesc) (me : Option ℕ) (refs : List NodesRef) : List NodesRef :=
  match me, validateRefs n.sizes refs with
  | some _, .ok refs' => refs'
  | _, _ => refs

def memo (n : NodesDesc) (me : Option ℕ) (shrink : List Bool) :
    Memo (List NodesRef) (NodesPart shrink.length) String (Option (List ℕ)) where
  fresh := fun c => execTaskNodesPart n me (c.refs shrink)
  key := fun c => storedRefs n me (c.refs shrink)
  hit := fun desc c => compareTaskExecCond desc (c.refs shrink)

end NodesPart

/-! ## The entry of a reference by number -/

theorem countTriplet_validate {lower upper stride : ℤ} {size : ℕ} {l u s : ℤ}
    (h : validateNodesRef lower upper stride size = .ok (l, u, s)) :
    countTriplet l u s = countTriplet lower upper stride := by
  have round : ∀ d t : ℤ, t ≠ 0 → (d - d.tmod t).tdiv t = d.tdiv t := by
    intro d t ht
    have hdm := Int.tmod_add_tdiv_mul d t
    have he : d - d.tmod t = d.tdiv t * t := by linarith
    rw [he, Int.mul_tdiv_cancel _ ht]
  unfold validateNodesRef at h
  simp only at h
  split_ifs at h with h0 hs h1 h2 h3 h1 h2 h3
  · simp only [Except.ok.injEq, Prod.mk.injEq] at h
    obtain ⟨rfl, rfl, rfl⟩ := h
    have he : upper - (upper - lower).tmod stride - 1 - (lower - 1) =
        upper - lower - (upper - lower).tmod stride := by ring
    rw [countTriplet, countTriplet, he, round _ _ h0]
  · simp only [Except.ok.injEq, Prod.mk.injEq] at h
    obtain ⟨rfl, rfl, rfl⟩ := h
    have he : lower - 1 - (upper + (lower - upper).tmod (-stride) - 1) =
        lower - upper - (lower - upper).tmod (-stride) := by ring
    have hneg : lower - upper = -(upper - lower) := by ring
    rw [countTriplet, countTriplet, he, round _ _ (by omega), hneg, Int.neg_tdiv, Int.tdiv_neg,
      neg_neg]

theorem NodesRef.validate_unshrunk {ref ref' : NodesRef} {size : ℕ} (hs : ref.shrink = false)
    (h : ref.validate size = .ok ref') :
    validateNodesRef ref.lower ref.upper ref.stride size =
      .ok (ref'.lower, ref'.upper, ref'.stride) ∧
      ref'.shrink = false := by
  rw [validate, if_neg (by simp [hs])] at h
  cases hv : validateNodesRef ref.lower ref.upper ref.stride size with
  | error e => simp [hv, bind, Except.bind] at h
  | ok v =>
    obtain rfl : (⟨false, v.1, v.2.1, v.2.2⟩ : NodesRef) = ref' := by
      simpa [hv, bind, Except.bind] using h
    exact ⟨rfl, rfl⟩

namespace GlobalPart

variable {worldSize me : ℕ} {c p : GlobalPart worldSize me}

def members (worldSize : ℕ) (ref : NodesRef) : List ℕ :=
  (List.range worldSize).filter fun q => ref.includes q

theorem filter_exec (c : GlobalPart worldSize me) (ref : NodesRef) :
    c.exec.ranks.filter (fun q => ref.includes q) =
      (members worldSize ref).filter fun q => q ∈ c.exec.ranks := by
  have he : c.exec.ranks = (List.range worldSize).filter fun q => q ∈ c.exec.ranks := by
    refine List.Pairwise.eq_of_mem_iff c.exec.sorted (List.pairwise_lt_range.filter _) fun q => ?_
    rw [List.mem_filter, List.mem_range, decide_eq_true_eq]
    exact ⟨fun h => ⟨c.exec.lt q h, h⟩, And.right⟩
  conv_lhs => rw [he]
  rw [members, List.filter_comm]

theorem execTaskGlobalPart_eq {ref : NodesRef} (h : c.ref.validate worldSize = .ok ref) :
    c.execTaskGlobalPart =
      if ref.includes me = true ∧ ¬ ∀ r ∈ members worldSize ref, r ∈ c.exec.ranks then
        .error "cannot create a new nodes descriptor: communicator size is not correct"
      else .ok (if ref.includes me then some (members worldSize ref) else none) := by
  obtain ⟨hv, hs⟩ := NodesRef.validate_unshrunk rfl h
  obtain ⟨hnorm, hstride⟩ := validateNodesRef_ok hv
  have hnorm' : ref.Normal worldSize := ⟨hnorm.1, hnorm.2, hnorm.3, hnorm.4, hnorm.5⟩
  obtain ⟨L, S, q, hl, hst, hu, hS, -⟩ := hnorm'.exists_nat
  have hcount := NodesRef.count_eq hs hl hst hu hS
  have hcount' : countTriplet ref.lower ref.upper ref.stride = q + 1 := by
    rw [NodesRef.count, if_neg (by simp [hs])] at hcount
    exact hcount
  have hraw : countTriplet c.lower c.upper c.stride = q + 1 :=
    (countTriplet_validate hv).symm.trans hcount'
  have h0 : c.stride ≠ 0 := by
    intro h0
    have : ref.stride = |c.stride| := hstride
    rw [h0, hst] at this
    simp at this
    omega
  have hlen : (members worldSize ref).length = q + 1 := by
    rw [members, hnorm'.filter_includes hs, List.length_map, List.length_range, hcount]
    omega
  simp only [execTaskGlobalPart, if_neg h0, hraw, h, hcount', bind, Except.bind]
  rw [if_neg (by omega)]
  by_cases hme : ref.includes me = true
  · have hfil : c.exec.ranks.filter (fun q => ref.includes q = ref.includes me) =
        (members worldSize ref).filter fun q => q ∈ c.exec.ranks := by
      rw [← filter_exec]
      apply List.filter_congr
      intro x _
      simp [hme]
    have hall : (((members worldSize ref).filter fun q => q ∈ c.exec.ranks).length : ℤ) = q + 1 ↔
        ∀ r ∈ members worldSize ref, r ∈ c.exec.ranks := by
      rw [← Nat.cast_succ, Nat.cast_inj, Nat.succ_eq_add_one, ← hlen,
        List.length_filter_eq_length_iff]
      simp
    rw [hfil]
    by_cases hcov : ∀ r ∈ members worldSize ref, r ∈ c.exec.ranks
    · have hself : ((members worldSize ref).filter fun q => q ∈ c.exec.ranks) =
          members worldSize ref := by
        rw [List.filter_eq_self]
        simpa using hcov
      have hno : ¬ (ref.includes me = true ∧ ¬ ∀ r ∈ members worldSize ref, r ∈ c.exec.ranks) :=
        fun hc => hc.2 hcov
      rw [if_neg (fun hc => hc.2 (hall.mpr hcov)), if_neg (by simp), if_neg hno, hself]
    · rw [if_pos ⟨hme, fun hc => hcov (hall.mp hc)⟩, if_pos ⟨hme, hcov⟩]
  · simp [hme]

theorem includes_iff {ref : NodesRef} (h : c.ref.validate worldSize = .ok ref) {r : ℕ} :
    c.Includes r ↔ ref.includes r = true := by
  constructor
  · rintro ⟨ref', h', hr⟩
    obtain rfl : ref = ref' := by simpa [h] using h'
    exact hr
  · exact fun hr => ⟨ref, h, hr⟩

theorem covers_iff {ref : NodesRef} (h : c.ref.validate worldSize = .ok ref) :
    (∀ r ∈ members worldSize ref, r ∈ c.exec.ranks) ↔
      ∀ r < worldSize, c.Includes r → r ∈ c.exec.ranks := by
  simp only [members, List.mem_filter, List.mem_range, and_imp, includes_iff h]

theorem execTaskGlobalPart_of_accepts {ref : NodesRef} (h : c.ref.validate worldSize = .ok ref)
    (hacc : c.Accepts) : c.execTaskGlobalPart =
      .ok (if ref.includes me then some (members worldSize ref) else none) := by
  rw [execTaskGlobalPart_eq h, if_neg]
  rintro ⟨hme, hno⟩
  exact hno ((covers_iff h).mpr (hacc.2 ((includes_iff h).mpr hme)))

theorem accepts_iff (c : GlobalPart worldSize me) :
    c.Accepts ↔ ∃ o, c.execTaskGlobalPart = .ok o := by
  cases h : c.ref.validate worldSize with
  | error e =>
    constructor
    · rintro ⟨⟨ref, hr⟩, -⟩
      simp [h] at hr
    · rintro ⟨o, ho⟩
      simp only [execTaskGlobalPart, h, bind, Except.bind] at ho
      split_ifs at ho
  | ok ref =>
    constructor
    · exact fun hacc => ⟨_, execTaskGlobalPart_of_accepts h hacc⟩
    · rintro ⟨o, ho⟩
      refine ⟨⟨ref, h⟩, fun hme => ?_⟩
      rw [execTaskGlobalPart_eq h] at ho
      by_contra hno
      rw [if_pos ⟨(includes_iff h).mp hme, mt (covers_iff h).mp hno⟩] at ho
      cases ho

theorem members_inj {ref ref' : NodesRef} (h : ref.Normal worldSize) (h' : ref'.Normal worldSize)
    (hs : ref.shrink = false) (hs' : ref'.shrink = false)
    (heq : members worldSize ref = members worldSize ref') :
    ref.lower = ref'.lower ∧ ref.count = ref'.count := by
  obtain ⟨L, S, q, hl, hst, hu, hS, -⟩ := h.exists_nat
  obtain ⟨L', S', q', hl', hst', hu', hS', -⟩ := h'.exists_nat
  have hc := NodesRef.count_eq hs hl hst hu hS
  have hc' := NodesRef.count_eq hs' hl' hst' hu' hS'
  rw [members, members, h.filter_includes hs, h'.filter_includes hs', hc, hc'] at heq
  have hq : ∀ k : ℕ, ((k : ℤ) + 1).toNat = k + 1 := fun k => by omega
  have hlen := congrArg List.length heq
  have hhead := congrArg List.head? heq
  simp only [List.length_map, List.length_range, hq] at hlen
  simp only [hq, List.range_succ_eq_map, List.map_cons, List.head?_cons, Option.some.injEq,
    mul_zero, add_zero] at hhead
  omega

theorem validate_lower {ref : NodesRef} (h : c.ref.validate worldSize = .ok ref) :
    ref.lower = if c.stride > 0 then c.lower - 1
      else c.upper + (c.lower - c.upper).tmod (-c.stride) - 1 := by
  obtain ⟨hv, -⟩ := NodesRef.validate_unshrunk rfl h
  simp only [validateNodesRef, GlobalPart.ref] at hv
  by_cases hs : c.stride > 0
  · simp only [hs, if_true] at hv ⊢
    split_ifs at hv
    simp only [Except.ok.injEq, Prod.mk.injEq] at hv
    exact hv.1.symm
  · simp only [hs, if_false] at hv ⊢
    split_ifs at hv
    simp only [Except.ok.injEq, Prod.mk.injEq] at hv
    exact hv.1.symm

/-- Two references that the comparison takes for one are for different processes, unless they are
the same reference. -/
theorem ref_eq_of_hit {ref ref' : NodesRef} (hp : p.ref.validate worldSize = .ok ref)
    (hc : c.ref.validate worldSize = .ok ref')
    (hit : compareTaskExecCond [p.ref] [c.ref] = true)
    (heq : members worldSize ref = members worldSize ref') : c.ref = p.ref := by
  obtain ⟨hv, hs⟩ := NodesRef.validate_unshrunk rfl hp
  obtain ⟨hv', hs'⟩ := NodesRef.validate_unshrunk rfl hc
  obtain ⟨hlow, hcount⟩ :=
    members_inj ((p.ref.validate_ok hp).1 hs) ((c.ref.validate_ok hc).1 hs') hs hs' heq
  rw [NodesRef.count, if_neg (by simp [hs]), NodesRef.count, if_neg (by simp [hs']),
    countTriplet_validate hv, countTriplet_validate hv'] at hcount
  rw [validate_lower hp, validate_lower hc] at hlow
  simp only [compareTaskExecCond, List.zip_cons_cons, List.zip_nil_right, List.all_cons,
    List.all_nil, Bool.and_true, Bool.or_eq_true, Bool.and_eq_true, decide_eq_true_eq,
    GlobalPart.ref] at hit hcount ⊢
  rcases hit with ⟨h1, h2⟩ | ⟨⟨h1, h2⟩, h3⟩
  · rw [h1, h2] at hlow
    rw [h1, h2, countTriplet, countTriplet] at hcount
    have ht : ∀ a : ℤ, a.tmod (- -1) = 0 := fun a => by simp
    have hd : ∀ a : ℤ, a.tdiv (-1) = -a := fun a => by simp
    rw [if_neg (by omega), if_neg (by omega), ht, ht] at hlow
    rw [hd, hd] at hcount
    rw [NodesRef.mk.injEq]
    exact ⟨rfl, by omega, by omega, by omega⟩
  · have hd : p.lower - p.upper = c.lower - c.upper := by omega
    rw [h3, hd] at hlow
    split_ifs at hlow <;> omega

theorem serves_iff (hp : p.Accepts) (hit : compareTaskExecCond [p.ref] [c.ref] = true) :
    p.Serves c ↔ c.execTaskGlobalPart = p.execTaskGlobalPart := by
  obtain ⟨⟨ref, hrp⟩, -⟩ := id hp
  constructor
  · rintro ⟨hacc, hsame⟩
    obtain ⟨⟨ref', hrc⟩, -⟩ := id hacc
    rw [execTaskGlobalPart_of_accepts hrp hp, execTaskGlobalPart_of_accepts hrc hacc]
    rcases hsame with hsame | ⟨hnp, hnc⟩
    · rw [hsame, hrp] at hrc
      cases hrc
      rfl
    · rw [includes_iff hrp] at hnp
      rw [includes_iff hrc] at hnc
      rw [if_neg hnp, if_neg hnc]
  · intro heq
    rw [execTaskGlobalPart_of_accepts hrp hp] at heq
    have hacc : c.Accepts := (accepts_iff c).mpr ⟨_, heq⟩
    obtain ⟨⟨ref', hrc⟩, -⟩ := id hacc
    refine ⟨hacc, ?_⟩
    rw [execTaskGlobalPart_of_accepts hrc hacc, Except.ok.injEq] at heq
    rw [includes_iff hrp, includes_iff hrc]
    by_cases hmp : ref.includes me = true
    · by_cases hmc : ref'.includes me = true
      · rw [if_pos hmp, if_pos hmc, Option.some.injEq] at heq
        exact Or.inl (ref_eq_of_hit hrp hrc hit heq.symm)
      · rw [if_pos hmp, if_neg hmc] at heq
        cases heq
    · by_cases hmc : ref'.includes me = true
      · rw [if_neg hmp, if_pos hmc] at heq
        cases heq
      · exact Or.inr ⟨hmp, hmc⟩

end GlobalPart

/-! ## The entry of a reference to a node set -/

/-- Validating a validated triplet again, counted from one, changes nothing. -/
theorem NodesRef.Normal.validate {size : ℕ} {ref ref' : NodesRef} (h : ref'.Normal size)
    (hs' : ref'.shrink = false) (hs : ref.shrink = false) (hl : ref'.lower = ref.lower - 1)
    (hu : ref'.upper = ref.upper - 1) (hst : ref'.stride = ref.stride) :
    ref.validate size = .ok ref' := by
  have h1 := h.lower_nonneg
  have h2 := h.lower_le
  have h3 := h.upper_lt
  have h4 := h.stride_pos
  have hdvd : (ref.upper - ref.lower).tmod ref.stride = 0 := by
    have he : ref'.upper - ref'.lower = ref.upper - ref.lower := by omega
    have hd := h.dvd
    rw [he, hst] at hd
    exact Int.tmod_eq_zero_of_dvd hd
  have hv : validateNodesRef ref.lower ref.upper ref.stride size =
      .ok (ref'.lower, ref'.upper, ref'.stride) := by
    have hpos : ref.stride > 0 := by omega
    simp only [validateNodesRef, hpos, if_true, hdvd]
    rw [if_neg (by omega), if_neg (by omega), if_neg (by omega), if_neg (by omega), hl, hu, hst,
      sub_zero]
  rw [NodesRef.validate, if_neg (by simp [hs]), hv]
  obtain ⟨b, l, u, s⟩ := ref'
  simp_all [bind, Except.bind]

namespace NodesPart

def SameFlags (refs refs' : List NodesRef) : Prop :=
  List.Forall₂ (fun a b => a.shrink = b.shrink ∧ (a.shrink = true → a = b)) refs refs'

theorem sameFlags_refs (shrink : List Bool) (p c : NodesPart shrink.length) :
    SameFlags (p.refs shrink) (c.refs shrink) := by
  obtain ⟨ps, hps⟩ := p
  obtain ⟨cs, hcs⟩ := c
  simp only [refs]
  induction shrink generalizing ps cs with
  | nil => exact List.Forall₂.nil
  | cons b shrink ih =>
    obtain ⟨x, ps, rfl⟩ := List.exists_cons_of_length_eq_add_one hps
    obtain ⟨y, cs, rfl⟩ := List.exists_cons_of_length_eq_add_one hcs
    refine List.Forall₂.cons ?_ (ih ps (by simpa using hps) cs (by simpa using hcs))
    cases b <;> simp

/-- A call that finds a validated reference would validate its own to the same. -/
theorem revalidate {sizes : List ℕ} {prefs crefs refs' : List NodesRef}
    (hsame : SameFlags prefs crefs) (hlen : prefs.length = sizes.length)
    (hv : validateRefs sizes prefs = .ok refs') (hit : compareTaskExecCond refs' crefs = true) :
    validateRefs sizes crefs = .ok refs' ∧
      NodesDesc.namedCommSize crefs = NodesDesc.namedCommSize refs' ∧
      (crefs.any fun ref => !ref.shrink && ref.stride = 0) = false := by
  rw [NodesDesc.namedCommSize_eq, NodesDesc.namedCommSize_eq]
  induction hsame generalizing sizes refs' with
  | nil =>
    obtain rfl : sizes = [] := by simpa [eq_comm] using hlen
    cases hv
    exact ⟨rfl, rfl, rfl⟩
  | @cons a b prefs crefs hab _ ih =>
    obtain ⟨size, sizes, rfl⟩ := List.exists_cons_of_length_eq_add_one hlen.symm
    cases hr : a.validate size with
    | error e => simp [validateRefs, hr, bind, Except.bind] at hv
    | ok a' =>
      cases hrs : validateRefs sizes prefs with
      | error e => simp [validateRefs, hr, hrs, bind, Except.bind] at hv
      | ok rest =>
        obtain rfl : a' :: rest = refs' := by
          simpa [validateRefs, hr, hrs, bind, Except.bind] using hv
        simp only [compareTaskExecCond, List.zip_cons_cons, List.all_cons, Bool.and_eq_true] at hit
        obtain ⟨ih1, ih2, ih3⟩ := ih (by simpa using hlen) hrs hit.2
        have hb : b.validate size = .ok a' ∧ b.count = a'.count ∧
            (!b.shrink && decide (b.stride = 0)) = false := by
          cases hs : a.shrink with
          | true =>
            obtain rfl := hab.2 hs
            obtain rfl : a = a' := by simpa [NodesRef.validate, hs] using hr
            exact ⟨hr, rfl, by simp [hs]⟩
          | false =>
            obtain ⟨-, hs'⟩ := NodesRef.validate_unshrunk hs hr
            have hn := (a.validate_ok hr).1 hs'
            have hpos := hn.stride_pos
            have hsb : b.shrink = false := hab.1 ▸ hs
            simp only [Bool.or_eq_true, Bool.and_eq_true, decide_eq_true_eq] at hit
            obtain ⟨h1, h2⟩ | ⟨⟨h1, h2⟩, h3⟩ := hit.1
            · omega
            · refine ⟨hn.validate hs' hsb h1 h2 h3, ?_, ?_⟩
              · simp only [NodesRef.count, hs', hsb, countTriplet, h1, h2, h3]
                simp
              · simp only [hsb, Bool.not_false, Bool.true_and, decide_eq_false_iff_not]
                omega
        refine ⟨?_, ?_, ?_⟩
        · simp [validateRefs, hb.1, ih1, bind, Except.bind]
        · rw [List.map_cons, List.map_cons, List.prod_cons, List.prod_cons, hb.2.1, ih2]
        · rw [List.any_cons, hb.2.2, ih3, Bool.or_self]

theorem compare_stride {desc refs : List NodesRef} (hlen : desc.length = refs.length)
    (hit : compareTaskExecCond desc refs = true) :
    desc.map NodesRef.stride = refs.map NodesRef.stride := by
  induction desc generalizing refs with
  | nil =>
    obtain rfl : refs = [] := by simpa [eq_comm] using hlen
    rfl
  | cons d desc ih =>
    obtain ⟨r, refs, rfl⟩ := List.exists_cons_of_length_eq_add_one hlen.symm
    simp only [compareTaskExecCond, List.zip_cons_cons, List.all_cons, Bool.and_eq_true,
      Bool.or_eq_true, decide_eq_true_eq] at hit
    rw [List.map_cons, List.map_cons, ih (by simpa using hlen) hit.2]
    rcases hit.1 with ⟨h1, h2⟩ | ⟨-, h3⟩
    · rw [h1, h2]
    · rw [h3]

theorem any_zero_stride {refs refs' : List NodesRef} (hsame : SameFlags refs refs')
    (hst : refs.map NodesRef.stride = refs'.map NodesRef.stride) :
    (refs.any fun ref => !ref.shrink && ref.stride = 0) =
      refs'.any fun ref => !ref.shrink && ref.stride = 0 := by
  induction hsame with
  | nil => rfl
  | cons hab _ ih =>
    simp only [List.map_cons, List.cons.injEq] at hst
    rw [List.any_cons, List.any_cons, ih hst.2, hab.1, hst.1]

theorem fresh_eq_of_hit {n : NodesDesc} {me : Option ℕ} {shrink : List Bool}
    (hdim : shrink.length = n.sizes.length) {p c : NodesPart shrink.length}
    (hp : ∃ o, execTaskNodesPart n me (p.refs shrink) = .ok o)
    (hit : compareTaskExecCond (storedRefs n me (p.refs shrink)) (c.refs shrink) = true) :
    execTaskNodesPart n me (c.refs shrink) = execTaskNodesPart n me (p.refs shrink) := by
  have hsame := sameFlags_refs shrink p c
  have hlen : (p.refs shrink).length = n.sizes.length := by
    rw [refs, List.length_zipWith, p.length_eq, min_self, hdim]
  obtain ⟨o, ho⟩ := hp
  cases hz : (p.refs shrink).any fun ref => !ref.shrink && ref.stride = 0 with
  | true => simp [execTaskNodesPart, hz] at ho
  | false =>
    cases me with
    | none =>
      have hst := compare_stride hsame.length_eq hit
      rw [execTaskNodesPart, execTaskNodesPart, ← any_zero_stride hsame hst, hz]
    | some r =>
      cases hv : validateRefs n.sizes (p.refs shrink) with
      | error e => simp [execTaskNodesPart, hz, hv, bind, Except.bind] at ho
      | ok refs' =>
        have hkey : storedRefs n (some r) (p.refs shrink) = refs' := by simp [storedRefs, hv]
        rw [hkey] at hit
        obtain ⟨h1, h2, h3⟩ := revalidate hsame hlen hv hit
        have hsize : NodesDesc.namedCommSize (p.refs shrink) = NodesDesc.namedCommSize refs' := by
          by_contra hne
          simp only [execTaskNodesPart, hz, hv, bind, Except.bind] at ho
          split_ifs at ho
        simp only [execTaskNodesPart, hz, hv, h1, h2, h3, hsize, bind, Except.bind]

end NodesPart

/-- All four processes execute. -/
def fourExec : ExecNodes 4 1 := ⟨[0, 1, 2, 3], by decide, by decide, by decide⟩

/-- Calls that move on by more than one node, and one that is repeated with a negative stride. -/
def apartCalls : List (GlobalPart 4 1) :=
  [⟨fourExec, 1, 2, 1⟩, ⟨fourExec, 3, 4, 1⟩, ⟨fourExec, 2, 1, -1⟩, ⟨fourExec, 2, 1, -1⟩]

end OmniCompiler.Xmp
