import OmniCompiler.Memory.FailFastSet

/-!
# Removing foreign names from the dependences (`XcIdentTable.java`)

`_removeExternVar` removes names from the set that it iterates over. The iterator fails when it is
advanced after that, so only the name that it visits last may be removed.
-/
namespace OmniCompiler.CBack

open Memory

/-- A symbol table; the maps of tags and labels are not read. -/
structure XcIdentTable (Ident : Type*) where
  mainSymMap : String → Option Ident

variable {Ident : Type*}

namespace XcIdentTable

/-- `_mainSymMap.containsKey`. -/
def containsMain (table : XcIdentTable Ident) (name : String) : Bool :=
  (table.mainSymMap name).isSome

/-- The loop of `_removeExternVar` over what an iterator has not visited. -/
def removeLoop (table : XcIdentTable Ident) (expectedModCount : ℕ) :
    List String → FailFastSet String → Except IteratorError (FailFastSet String)
  | [], vars => .ok vars
  | name :: rest, vars =>
    match vars.next ⟨name :: rest, expectedModCount⟩ with
    | .error e => .error e
    | .ok _ =>
      removeLoop table expectedModCount rest
        (if table.containsMain name = false then vars.remove name else vars)

def removeExternVar (table : XcIdentTable Ident) (vars : FailFastSet String) :
    Except IteratorError (FailFastSet String) :=
  let it := vars.iterator
  removeLoop table it.expectedModCount it.rest vars

/-- It finishes, and the names that are left are those of the main symbol map. -/
def KeepsOwn (table : XcIdentTable Ident) (vars : FailFastSet String) : Prop :=
  ∃ left, table.removeExternVar vars = .ok left ∧
    ∀ name, name ∈ left ↔ name ∈ vars ∧ table.containsMain name = true

section Loop

variable {table : XcIdentTable Ident} {vars : FailFastSet String} {name : String}
  {rest : List String}

theorem removeLoop_cons (k : ℕ) : removeLoop table k (name :: rest) vars =
    if vars.modCount = k then removeLoop table k rest
      (if table.containsMain name = false then vars.remove name else vars)
    else .error .concurrentModification := by
  rw [removeLoop, FailFastSet.next]
  by_cases hk : vars.modCount = k
  · simp only [hk, if_true]
  · simp only [hk, if_false]

theorem removeLoop_own (h : table.containsMain name = true) :
    removeLoop table vars.modCount (name :: rest) vars =
      removeLoop table vars.modCount rest vars := by
  rw [removeLoop_cons, if_pos rfl, if_neg (by simp [h])]

/-- A foreign name is removed, and the iterator cannot be advanced any more. -/
theorem removeLoop_foreign (hmem : name ∈ vars) (h : table.containsMain name = false) :
    removeLoop table vars.modCount (name :: rest) vars =
      if rest = [] then .ok (vars.remove name) else .error .concurrentModification := by
  rw [removeLoop_cons, if_pos rfl, if_pos h]
  cases rest with
  | nil => rfl
  | cons next rest =>
    rw [removeLoop_cons, FailFastSet.modCount_remove hmem, if_neg (Nat.succ_ne_self _),
      if_neg (List.cons_ne_nil next rest)]

/-- The loop finishes if and only if no name before the last one is foreign. -/
theorem removeLoop_finishes_iff (hmem : ∀ name ∈ rest, name ∈ vars) :
    (∃ left, removeLoop table vars.modCount rest vars = .ok left) ↔
      ∀ name ∈ rest.dropLast, table.containsMain name = true := by
  induction rest with
  | nil => simp [removeLoop]
  | cons name rest ih =>
    have hrest := ih fun other hother => hmem other (List.mem_cons_of_mem name hother)
    cases hown : table.containsMain name with
    | true =>
      rw [removeLoop_own hown, hrest]
      cases rest with
      | nil => simp
      | cons next rest => simp [hown]
    | false =>
      rw [removeLoop_foreign (hmem name List.mem_cons_self) hown]
      cases rest with
      | nil => simp
      | cons next rest => simp [hown]

/-- Whatever the loop leaves when it finishes is right for the names that it visits. -/
theorem mem_of_removeLoop {left : FailFastSet String} (hmem : ∀ name ∈ rest, name ∈ vars)
    (h : removeLoop table vars.modCount rest vars = .ok left) (name : String) :
    name ∈ left ↔ name ∈ vars ∧ (name ∈ rest → table.containsMain name = true) := by
  induction rest with
  | nil =>
    cases h
    simp
  | cons first rest ih =>
    have hfirst := hmem first List.mem_cons_self
    cases hown : table.containsMain first with
    | true =>
      rw [removeLoop_own hown] at h
      rw [ih (fun other hother => hmem other (List.mem_cons_of_mem first hother)) h]
      by_cases hname : name = first
      · simp [hname, hown]
      · simp [hname]
    | false =>
      rw [removeLoop_foreign hfirst hown] at h
      split_ifs at h with hlast
      cases h
      rw [FailFastSet.mem_remove, hlast]
      by_cases hname : name = first
      · simp [hname, hown]
      · simp [hname]

end Loop

/-- The loop is right if and only if all names but the one that is visited last are names of the
main symbol map. -/
theorem keepsOwn_iff (table : XcIdentTable Ident) (vars : FailFastSet String) :
    table.KeepsOwn vars ↔
      ∀ name ∈ vars.elements.dropLast, table.containsMain name = true := by
  have hfinishes := @removeLoop_finishes_iff _ table vars vars.elements fun _ hname => hname
  rw [← hfinishes]
  constructor
  · intro ⟨left, hleft, _⟩
    exact ⟨left, hleft⟩
  · intro ⟨left, hleft⟩
    refine ⟨left, hleft, fun name => ?_⟩
    rw [mem_of_removeLoop (fun _ hname => hname) hleft name]
    constructor
    · intro ⟨hname, hown⟩
      exact ⟨hname, hown hname⟩
    · intro ⟨hname, hown⟩
      exact ⟨hname, fun _ => hown⟩

/-- Two names of an enclosing scope. -/
theorem not_keepsOwn_two : ¬ XcIdentTable.KeepsOwn ⟨fun _ => (none : Option Unit)⟩
    ⟨["n", "m"], by decide, 2⟩ := by
  intro ⟨left, hleft, _⟩
  cases hleft

end XcIdentTable

end OmniCompiler.CBack
