import Mathlib.Data.List.Basic
import Mathlib.Tactic

/-!
# Tokenising by the longest match

A scanner reads a token character by character as long as the characters read and the next one can
be the beginning of a token. `Spells` says that a text is a list of tokens before every text that
begins with one of a set of characters, so that texts can be put together.
-/
namespace OmniCompiler.MaximalMunch

universe u v

/-- Blanks separate tokens. `goesOn acc c` tells that the characters `acc` and then `c` begin a
token. -/
structure Scanner (α : Type u) (τ : Type v) where
  blank : α → Bool
  goesOn : List α → α → Bool
  token? : List α → Option τ

namespace Scanner

variable {α : Type u} {τ : Type v} (S : Scanner α τ)

/-- The token that ends after `acc`, if one has begun. -/
def finish : List α → Option (List τ)
  | [] => some []
  | acc => (S.token? acc).map ([·])

def scan : List α → List α → Option (List τ)
  | acc, [] => S.finish acc
  | acc, c :: cs =>
    if !acc.isEmpty && S.goesOn acc c then
      scan (acc ++ [c]) cs
    else
      (S.finish acc).bind fun ts =>
        (scan (if S.blank c then [] else [c]) cs).map (ts ++ ·)

def lex (text : List α) : Option (List τ) := S.scan [] text

@[simp] theorem lex_nil : S.lex [] = some [] := rfl

theorem lex_cons (c : α) (cs : List α) :
    S.lex (c :: cs) = S.scan (if S.blank c then [] else [c]) cs := by
  simp [lex, scan, finish]

theorem lex_blank {c : α} (hc : S.blank c = true) (cs : List α) : S.lex (c :: cs) = S.lex cs := by
  rw [lex_cons, if_pos hc, lex]

/-- The text `s` is read as one token. -/
structure Reads (s : List α) (t : τ) : Prop where
  begins : ∃ c cs, s = c :: cs ∧ S.blank c = false
  goesOn : ∀ p c q, s = p ++ c :: q → p ≠ [] → S.goesOn p c = true
  token : S.token? s = some t

variable {S}

theorem scan_append {s : List α} (acc rest : List α) (hacc : acc ≠ [])
    (h : ∀ p c q, s = p ++ c :: q → S.goesOn (acc ++ p) c = true) :
    S.scan acc (s ++ rest) = S.scan (acc ++ s) rest := by
  induction s generalizing acc with
  | nil => simp
  | cons c cs ih =>
    have hc : S.goesOn acc c = true := by simpa using h [] c cs rfl
    have hnext : ∀ p d q, cs = p ++ d :: q → S.goesOn ((acc ++ [c]) ++ p) d = true := by
      intro p d q hcs
      have := h (c :: p) d q (by rw [hcs, List.cons_append])
      simpa using this
    rw [List.cons_append, scan, if_pos (by simp [hacc, hc]), ih (acc ++ [c]) (by simp) hnext,
      List.append_assoc, List.singleton_append]

theorem finish_of_reads {s : List α} {t : τ} (h : S.Reads s t) : S.finish s = some [t] := by
  obtain ⟨c, cs, rfl, -⟩ := h.begins
  rw [finish, h.token, Option.map_some]
  simp

theorem lex_of_reads {s : List α} {t : τ} (h : S.Reads s t) (rest : List α)
    (hstop : ∀ c, rest.head? = some c → S.goesOn s c = false) :
    S.lex (s ++ rest) = (S.lex rest).map (t :: ·) := by
  obtain ⟨c, cs, rfl, hc⟩ := h.begins
  have hread : S.lex (c :: cs ++ rest) = S.scan (c :: cs) rest := by
    rw [List.cons_append, lex_cons, hc, if_neg (by simp), scan_append [c] rest (by simp)]
    · rfl
    · intro p d q hcs
      exact h.goesOn (c :: p) d q (by rw [hcs, List.cons_append]) (by simp)
  rw [hread]
  cases rest with
  | nil => simp [scan, finish_of_reads h]
  | cons d ds =>
    have hd : S.goesOn (c :: cs) d = false := hstop d rfl
    rw [scan, if_neg (by simp [hd]), finish_of_reads h, Option.bind_some, lex_cons]
    simp

variable (S)

/-- The text `s` is the tokens `ts` before every text whose first character satisfies `next`. -/
def Spells (next : α → Prop) (s : List α) (ts : List τ) : Prop :=
  ∀ rest, (∀ c, rest.head? = some c → next c) → S.lex (s ++ rest) = (S.lex rest).map (ts ++ ·)

variable {S} {next next' : α → Prop} {s s' : List α} {ts ts' : List τ}

theorem Spells.nil : S.Spells next [] [] := by
  intro rest _
  simp

theorem Spells.mono (h : S.Spells next s ts) (hnext : ∀ c, next' c → next c) :
    S.Spells next' s ts := fun rest hrest => h rest fun c hc => hnext c (hrest c hc)

theorem Spells.append (h : S.Spells next s ts) (h' : S.Spells next' s' ts')
    (hs' : ∃ c cs, s' = c :: cs ∧ next c) : S.Spells next' (s ++ s') (ts ++ ts') := by
  obtain ⟨c, cs, rfl, hc⟩ := hs'
  intro rest hrest
  have hfirst : ∀ d, (c :: cs ++ rest).head? = some d → next d := by
    intro d hd
    obtain rfl : c = d := by simpa using hd
    exact hc
  rw [List.append_assoc, h _ hfirst, h' rest hrest, Option.map_map]
  congr 1
  funext us
  simp

theorem Reads.spells {t : τ} (h : S.Reads s t) :
    S.Spells (fun c => S.goesOn s c = false) s [t] := fun rest hrest => by
  rw [lex_of_reads h rest hrest]
  rfl

theorem Spells.blank {c : α} (hc : S.blank c = true) : S.Spells (fun _ => True) [c] [] := by
  intro rest _
  rw [List.singleton_append, S.lex_blank hc]
  simp

theorem Spells.lex_eq (h : S.Spells next s ts) : S.lex s = some ts := by
  have := h [] (by simp)
  simpa using this

end Scanner

end OmniCompiler.MaximalMunch
