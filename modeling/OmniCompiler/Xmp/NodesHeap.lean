import OmniCompiler.Xmp.NodesChain

/-!
# Termination of the searches along inherited node sets

The constructors of node sets are steps on a heap of descriptors; the address of a descriptor is
its place in the order of creation. All of them link a node set to an older one, except for the
temporary node sets of arrays, which are linked to themselves.
-/
namespace OmniCompiler.Xmp

open NodesType

/-- The constructors of `xmp_nodes.c`. `rank` is what the communicator gives the executing process;
the attribute of a temporary node set and the sizes in its `inherit_info` are not set. -/
inductive NodesOp where
  | byComm (size : ℕ) (attr : NodesAttr) (rank : List ℤ)
  | global (sizes : List ℕ) (rank : List ℤ)
  | exec (execNodes : ℕ) (sizes : List ℕ) (rank : List ℤ)
  | number (ref : NodesRef) (sizes : List ℕ) (rank : List ℤ)
  | named (refNodes : ℕ) (refs : List NodesRef) (sizes : List ℕ) (rank : List ℤ)
  | temporary (onto : ℕ) (attr : NodesAttr) (unset : List ℤ) (rank : List ℤ)

def calcInheritInfo (n : NodesType) : List InheritInfo :=
  n.sizes.map fun size => ⟨false, 0, size - 1, 1, size⟩

def calcInheritInfoByRef (n : NodesType) (refs : List NodesRef) : List InheritInfo :=
  List.zipWith (fun (ref : NodesRef) (size : ℕ) =>
    ⟨ref.shrink, ref.lower, ref.upper, ref.stride, size⟩) refs n.sizes

abbrev NodesHeap := List NodesType

namespace NodesHeap

/-- The heap after a constructor. `_XMP_world_nodes` is the first descriptor. -/
def create (heap : NodesHeap) : NodesOp → Option NodesHeap
  | .byComm size attr rank =>
    some (heap ++ [⟨heap.length, heap.length, attr, size, [size], rank, none, []⟩])
  | .global sizes rank =>
    some (heap ++ [⟨heap.length, heap.length, .entire, sizes.prod, sizes, rank, none, []⟩])
  | .exec execNodes sizes rank => do
    let inherit ← heap[execNodes]?
    some (heap ++ [⟨heap.length, heap.length, .executing, sizes.prod, sizes, rank,
      some execNodes, calcInheritInfo inherit⟩])
  | .number ref sizes rank => do
    let world ← heap[0]?
    some (heap ++ [⟨heap.length, heap.length, .entire, sizes.prod, sizes, rank, some 0,
      calcInheritInfoByRef world [ref]⟩])
  | .named refNodes refs sizes rank => do
    let inherit ← heap[refNodes]?
    some (heap ++ [⟨heap.length, heap.length, .equivalence, sizes.prod, sizes, rank,
      some refNodes, calcInheritInfoByRef inherit refs⟩])
  | .temporary onto attr unset rank => do
    let n ← heap[onto]?
    some (heap ++ [⟨heap.length, heap.length, attr, n.commSize, n.sizes, rank, some heap.length,
      List.zipWith (fun (size : ℕ) u => ⟨false, 1, size, 1, u⟩) n.sizes unset⟩])

def run (ops : List NodesOp) : Option NodesHeap := ops.foldlM create []

def parent (heap : NodesHeap) (a : ℕ) : Option ℕ := heap[a]?.bind NodesType.inherit

instance : Inhabited NodesType := ⟨⟨0, 0, .entire, 0, [], [], none, []⟩⟩

def get (heap : NodesHeap) (a : ℕ) : NodesType := heap.getD a default

/-- The descriptors from `a` upwards, as many as the fuel allows. -/
def chain (heap : NodesHeap) (fuel a : ℕ) : Chain NodesType :=
  Chain.unroll heap.parent heap.get fuel a

/-- `b` is reached from `a` through `inherit_nodes`. -/
def Ancestor (heap : NodesHeap) : ℕ → ℕ → Prop := Chain.Ancestor heap.parent

/-- A node set that is linked to itself is reached from `a`. -/
def ReachesTemporary (heap : NodesHeap) (a : ℕ) : Prop :=
  ∃ b, heap.Ancestor a b ∧ heap.parent b = some b

def Ordered (heap : NodesHeap) : Prop := ∀ a b, heap.parent a = some b → b ≤ a

theorem parent_append {heap : NodesHeap} {n : NodesType} {a : ℕ} :
    parent (heap ++ [n]) a =
      if a < heap.length then heap.parent a else if a = heap.length then n.inherit else none := by
  unfold parent
  split_ifs with h1 h2
  · rw [List.getElem?_append_left h1]
  · rw [h2]
    simp
  · have hlen : (heap ++ [n]).length ≤ a := by
      rw [List.length_append, List.length_singleton]
      omega
    rw [List.getElem?_eq_none hlen]
    rfl

theorem ordered_append {heap : NodesHeap} (h : heap.Ordered) {n : NodesType}
    (hn : ∀ b, n.inherit = some b → b ≤ heap.length) : Ordered (heap ++ [n]) := by
  intro a b hab
  rw [parent_append] at hab
  split_ifs at hab with h1 h2
  · exact h a b hab
  · exact h2 ▸ hn b hab

theorem ordered_create {heap heap' : NodesHeap} {op : NodesOp} (h : heap.Ordered)
    (hop : heap.create op = some heap') : heap'.Ordered := by
  have link : ∀ {a : ℕ} {f : NodesType → NodesType}, (∀ n, (f n).inherit = some a) →
      ((heap[a]?).bind fun n => some (heap ++ [f n])) = some heap' → heap'.Ordered := by
    intro a f hf hb
    obtain ⟨n, hn, he⟩ := Option.bind_eq_some_iff.mp hb
    obtain rfl := Option.some.inj he
    have ha : a < heap.length := (List.getElem?_eq_some_iff.mp hn).1
    apply ordered_append h
    intro b hb
    rw [hf, Option.some.injEq] at hb
    omega
  cases op with
  | byComm size attr rank =>
    obtain rfl := Option.some.inj hop
    exact ordered_append h (by simp)
  | global sizes rank =>
    obtain rfl := Option.some.inj hop
    exact ordered_append h (by simp)
  | exec execNodes sizes rank => exact link (fun _ => rfl) hop
  | number ref sizes rank => exact link (fun _ => rfl) hop
  | named refNodes refs sizes rank => exact link (fun _ => rfl) hop
  | temporary onto attr unset rank =>
    obtain ⟨n, -, he⟩ := Option.bind_eq_some_iff.mp hop
    obtain rfl := Option.some.inj he
    apply ordered_append h
    intro b hb
    simp only [Option.some.injEq] at hb
    omega

theorem ordered_foldlM {ops : List NodesOp} {heap heap' : NodesHeap} (h : heap.Ordered)
    (hr : ops.foldlM create heap = some heap') : heap'.Ordered := by
  induction ops generalizing heap with
  | nil =>
    obtain rfl : heap = heap' := by simpa using hr
    exact h
  | cons op ops ih =>
    rw [List.foldlM_cons] at hr
    obtain ⟨heap₁, h₁, hr⟩ := Option.bind_eq_some_iff.mp hr
    exact ih (ordered_create h h₁) hr

theorem ordered_run {ops : List NodesOp} {heap : NodesHeap} (h : run ops = some heap) :
    heap.Ordered :=
  ordered_foldlM (fun a b hab => by simp [parent] at hab) h

/-! ## The search for an equal node set -/

theorem climb_isSome {β : Type} (worldSize : ℕ) (target : NodesType) (fill : ℤ)
    (found : NodesType → List ℤ → β) (c : Chain NodesType) (ranks : List ℤ) :
    (climb worldSize target fill found c ranks).isSome =
      (c.any (fun n => compareNodes worldSize n target) || c.complete) := by
  induction c generalizing ranks with
  | root n => cases h : compareNodes worldSize n target <;> simp [climb, h, Chain.complete]
  | cut n =>
    cases h : compareNodes worldSize n target <;> simp [climb, h, Chain.any, Chain.complete]
  | link n c ih =>
    cases h : compareNodes worldSize n target with
    | true => simp [climb, h, Chain.any]
    | false => simp [climb, h, Chain.any, Chain.complete, ih]

variable {heap : NodesHeap}

theorem exists_any_chain {a b : ℕ} (h : heap.Ancestor a b) :
    ∃ k, ∀ fuel ≥ k, ∀ p : NodesType → Bool, p (heap.get b) = true →
      (heap.chain fuel a).any p = true :=
  Chain.exists_any_unroll h

theorem exists_complete_chain (h : heap.Ordered) {a : ℕ} (ha : ¬ heap.ReachesTemporary a) :
    ∃ k, ∀ fuel ≥ k, (heap.chain fuel a).complete = true :=
  Chain.exists_complete h fun b hab hb => ha ⟨b, hab, hb⟩

theorem not_reachesTemporary {fuel a : ℕ} (h : (heap.chain fuel a).complete = true) :
    ¬ heap.ReachesTemporary a := by
  rintro ⟨b, hab, hb⟩
  rw [chain, Chain.not_complete hab hb] at h
  cases h

/-- A search along the chain of `a` ends when it meets what it looks for or the chain ends. -/
theorem exists_any_or_complete (h : heap.Ordered) (a : ℕ) (p : NodesType → Bool) :
    (∃ fuel, ((heap.chain fuel a).any p || (heap.chain fuel a).complete) = true) ↔
      (∃ b, heap.Ancestor a b ∧ p (heap.get b) = true) ∨ ¬ heap.ReachesTemporary a := by
  constructor
  · rintro ⟨fuel, hf⟩
    rw [Bool.or_eq_true] at hf
    rcases hf with hf | hf
    · exact Or.inl (Chain.exists_of_any_unroll hf)
    · exact Or.inr (not_reachesTemporary hf)
  · rintro (⟨b, hab, hb⟩ | hno)
    · obtain ⟨k, hk⟩ := exists_any_chain hab
      exact ⟨k, by rw [hk k le_rfl p hb, Bool.true_or]⟩
    · obtain ⟨k, hk⟩ := exists_complete_chain h hno
      exact ⟨k, by rw [hk k le_rfl, Bool.or_true]⟩

/-! ## The search for coordinates -/

/-- When the chain of the target is complete, the search is one along the chain of `n`; otherwise
the first node set has to be found at once. -/
theorem coord_isSome (pastEnd : ℕ → Option ℤ) (target c : Chain NodesType) (ncoord : List ℤ) :
    (NodesType.calcCoordOnTargetNodes pastEnd target c ncoord).isSome =
      (target.any (matchesNodes (first c)) || (target.complete &&
        (c.any (fun n => target.any (matchesNodes n) || (pastEndError pastEnd n).isSome) ||
          c.complete))) := by
  have hnow : ∀ n ncoord, target.any (matchesNodes n) = true →
      ∀ c : Chain NodesType, first c = n →
      (NodesType.calcCoordOnTargetNodes pastEnd target c ncoord).isSome = true := by
    intro n ncoord h c hc
    obtain ⟨x, hx⟩ := coord2_of_any ncoord h
    cases c <;> simp_all [first, NodesType.calcCoordOnTargetNodes]
  induction c generalizing ncoord with
  | root n =>
    cases h : target.any (matchesNodes n) with
    | true => simp [hnow n ncoord h (.root n) rfl, first, h]
    | false =>
      have hx := coord2_of_not_any ncoord h
      cases hc : target.complete <;>
        simp [NodesType.calcCoordOnTargetNodes, hx, hc, first, h, Chain.complete]
  | cut n =>
    cases h : target.any (matchesNodes n) with
    | true => simp [hnow n ncoord h (.cut n) rfl, first, h]
    | false =>
      have hx := coord2_of_not_any ncoord h
      cases hc : target.complete <;>
        simp [NodesType.calcCoordOnTargetNodes, hx, hc, first, h, Chain.complete, Chain.any]
  | link n c ih =>
    cases h : target.any (matchesNodes n) with
    | true => simp [hnow n ncoord h (.link n c) rfl, first, h]
    | false =>
      have hx := coord2_of_not_any ncoord h
      cases hc : target.complete with
      | false => simp [NodesType.calcCoordOnTargetNodes, hx, hc, first, h]
      | true =>
        have hfirst : first (.link n c) = n := rfl
        simp only [NodesType.calcCoordOnTargetNodes, hx, hc, if_true, hfirst, h, Chain.any,
          Chain.complete, Bool.false_or, Bool.true_and]
        cases htrap : pastEndError pastEnd n with
        | some e => rfl
        | none =>
          simp only [ih, hc, Bool.true_and, Option.isSome_none, Bool.false_or]
          cases hf : target.any (matchesNodes (first c)) with
          | false => rw [Bool.false_or]
          | true =>
            have hany : c.any (fun n => target.any (matchesNodes n) ||
                (pastEndError pastEnd n).isSome) = true := any_of_first (by rw [hf, Bool.true_or])
            rw [hany, Bool.true_or, Bool.true_or]

theorem first_chain (fuel a : ℕ) : first (heap.chain fuel a) = heap.get a := by
  rw [chain]
  cases fuel <;> cases h : heap.parent a <;> simp [Chain.unroll, h, first]

/-- A node set that the coordinate search meets on the way up from `t` when it looks for `n`. -/
def Meets (heap : NodesHeap) (n t : ℕ) : Prop :=
  ∃ b, heap.Ancestor t b ∧ matchesNodes (heap.get n) (heap.get b) = true

/-- The way up from a node set ends the program. -/
def EndsAt (heap : NodesHeap) (pastEnd : ℕ → Option ℤ) (m : ℕ) : Prop :=
  (pastEndError pastEnd (heap.get m)).isSome = true

theorem exists_coord_iff (h : heap.Ordered) (pastEnd : ℕ → Option ℤ) (n t : ℕ) (ncoord : List ℤ) :
    (∃ fuel, (NodesType.calcCoordOnTargetNodes pastEnd (heap.chain fuel t) (heap.chain fuel n)
      ncoord).isSome = true) ↔
    heap.Meets n t ∨ ¬ heap.ReachesTemporary t ∧
      ((∃ m, heap.Ancestor n m ∧ (heap.Meets m t ∨ heap.EndsAt pastEnd m)) ∨
        ¬ heap.ReachesTemporary n) := by
  constructor
  · rintro ⟨fuel, hf⟩
    rw [coord_isSome, first_chain, Bool.or_eq_true, Bool.and_eq_true, Bool.or_eq_true] at hf
    rcases hf with hf | ⟨hc, hf⟩
    · exact Or.inl (Chain.exists_of_any_unroll hf)
    · refine Or.inr ⟨not_reachesTemporary hc, ?_⟩
      rcases hf with hf | hf
      · obtain ⟨m, hm, hany⟩ := Chain.exists_of_any_unroll hf
        rw [Bool.or_eq_true] at hany
        exact Or.inl ⟨m, hm, hany.imp Chain.exists_of_any_unroll id⟩
      · exact Or.inr (not_reachesTemporary hf)
  · rintro (⟨b, htb, hb⟩ | ⟨hct, hn⟩)
    · obtain ⟨k, hk⟩ := exists_any_chain htb
      refine ⟨k, ?_⟩
      rw [coord_isSome, first_chain, hk k le_rfl _ hb, Bool.true_or]
    · obtain ⟨k, hk⟩ := exists_complete_chain h hct
      rcases hn with ⟨m, hnm, ⟨b, htb, hb⟩ | hend⟩ | hn
      · obtain ⟨k₁, hk₁⟩ := exists_any_chain htb
        obtain ⟨k₂, hk₂⟩ := exists_any_chain hnm
        refine ⟨max k (max k₁ k₂), ?_⟩
        have hany := hk₂ (max k (max k₁ k₂)) (by omega)
          (fun x => (heap.chain (max k (max k₁ k₂)) t).any (matchesNodes x) ||
            (pastEndError pastEnd x).isSome)
          (by rw [hk₁ _ (by omega) _ hb, Bool.true_or])
        rw [coord_isSome, hk _ (le_max_left _ _), hany]
        simp
      · obtain ⟨k₂, hk₂⟩ := exists_any_chain hnm
        refine ⟨max k k₂, ?_⟩
        have hany := hk₂ (max k k₂) (by omega)
          (fun x => (heap.chain (max k k₂) t).any (matchesNodes x) ||
            (pastEndError pastEnd x).isSome)
          (by rw [show (pastEndError pastEnd (heap.get m)).isSome = true from hend, Bool.or_true])
        rw [coord_isSome, hk _ (le_max_left _ _), hany]
        simp
      · obtain ⟨k', hk'⟩ := exists_complete_chain h hn
        refine ⟨max k k', ?_⟩
        rw [coord_isSome, hk _ (le_max_left k k'), hk' _ (le_max_right k k')]
        simp

end NodesHeap

/-- Four processes: the node array `p(4)`, its part `q = p(1:2)`, and the node set of an array that
is aligned with a template on `q`, as process 0 sees them. -/
def partOps : List NodesOp :=
  [.byComm 4 .entire [0], .global [4] [0], .named 1 [⟨false, 0, 1, 1⟩] [2] [0],
    .temporary 2 .equivalence [0] [0]]

def partHeap : NodesHeap :=
  [⟨0, 0, .entire, 4, [4], [0], none, []⟩, ⟨1, 1, .entire, 4, [4], [0], none, []⟩,
    ⟨2, 2, .equivalence, 2, [2], [0], some 1, [⟨false, 0, 1, 1, 4⟩]⟩,
    ⟨3, 3, .equivalence, 2, [2], [0], some 3, [⟨false, 1, 2, 1, 0⟩]⟩]

theorem run_partOps : NodesHeap.run partOps = some partHeap := by decide

end OmniCompiler.Xmp
