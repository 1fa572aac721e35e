import OmniCompiler.CFront.UnescChar

/-!
# Bodies of narrow literals

The body of a narrow literal is a sequence of ordinary characters and escapes, each of which denotes
one character. An octal escape ends after three digits or before another character, and a
hexadecimal one takes all hexadecimal digits that follow.
-/
namespace OmniCompiler.CFront

inductive SimpleEscape
  | alert
  | backspace
  | formFeed
  | newLine
  | carriageReturn
  | tab
  | verticalTab
  | backslash
  | quote
  | doubleQuote
  | question
  deriving DecidableEq

namespace SimpleEscape

def char : SimpleEscape → Char
  | alert => 'a'
  | backspace => 'b'
  | formFeed => 'f'
  | newLine => 'n'
  | carriageReturn => 'r'
  | tab => 't'
  | verticalTab => 'v'
  | backslash => '\\'
  | quote => '\''
  | doubleQuote => '"'
  | question => '?'

def value : SimpleEscape → Char
  | alert => Char.ofNat 7
  | backspace => Char.ofNat 8
  | formFeed => Char.ofNat 12
  | newLine => Char.ofNat 10
  | carriageReturn => Char.ofNat 13
  | tab => Char.ofNat 9
  | verticalTab => Char.ofNat 11
  | backslash => '\\'
  | quote => '\''
  | doubleQuote => '"'
  | question => '?'

end SimpleEscape

def octChar (d : Fin 8) : Char := Char.ofNat (48 + d)

inductive HexDigit
  | dec (d : Fin 10)
  | upper (d : Fin 6)
  | lower (d : Fin 6)
  deriving DecidableEq, Fintype

namespace HexDigit

def char : HexDigit → Char
  | dec d => Char.ofNat (48 + d)
  | upper d => Char.ofNat (65 + d)
  | lower d => Char.ofNat (97 + d)

def value : HexDigit → ℕ
  | dec d => d
  | upper d => 10 + d
  | lower d => 10 + d

def IsDec : HexDigit → Prop
  | dec _ => True
  | _ => False

instance : DecidablePred IsDec
  | dec _ => inferInstanceAs (Decidable True)
  | upper _ => inferInstanceAs (Decidable False)
  | lower _ => inferInstanceAs (Decidable False)

end HexDigit

def Ordinary (c : Char) : Prop := c ≠ '\\' ∧ 0 < c.toNat ∧ c.toNat < 256

instance : DecidablePred Ordinary := fun _ => inferInstanceAs (Decidable (_ ∧ _ ∧ _))

/-- An ordinary character or an escape. -/
inductive Item
  | ordinary (c : Char) (h : Ordinary c)
  | simple (e : SimpleEscape)
  | oct1 (a : Fin 8)
  | oct2 (a b : Fin 8)
  | oct3 (a b c : Fin 8)
  | hex1 (a : HexDigit)
  | hex2 (a b : HexDigit)
  deriving DecidableEq

namespace Item

def text : Item → List Char
  | ordinary c _ => [c]
  | simple e => ['\\', e.char]
  | oct1 a => ['\\', octChar a]
  | oct2 a b => ['\\', octChar a, octChar b]
  | oct3 a b c => ['\\', octChar a, octChar b, octChar c]
  | hex1 a => ['\\', 'x', a.char]
  | hex2 a b => ['\\', 'x', a.char, b.char]

/-- The character that it denotes in C. -/
def value : Item → Char
  | ordinary c _ => c
  | simple e => e.value
  | oct1 a => Char.ofNat a
  | oct2 a b => Char.ofNat (8 * a + b)
  | oct3 a b c => Char.ofNat (64 * a + 8 * b + c)
  | hex1 a => Char.ofNat a.value
  | hex2 a b => Char.ofNat (16 * a.value + b.value)

def first : Item → Char
  | ordinary c _ => c
  | _ => '\\'

/-- The second item does not begin with a digit of the first. -/
def Follows : Item → Item → Prop
  | oct1 _, j | oct2 _ _, j => isOctDigit j.first = false
  | hex1 _, j | hex2 _ _, j => isHexDigit j.first = false
  | _, _ => True

/-- The value is that of an `unsigned char`. -/
def InRange : Item → Prop
  | oct3 a b c => 64 * (a : ℕ) + 8 * b + c < 256
  | _ => True

instance : DecidableRel Follows
  | oct1 _, j | oct2 _ _, j => inferInstanceAs (Decidable (isOctDigit j.first = false))
  | hex1 _, j | hex2 _ _, j => inferInstanceAs (Decidable (isHexDigit j.first = false))
  | ordinary _ _, _ | simple _, _ | oct3 _ _ _, _ => inferInstanceAs (Decidable True)

instance : DecidablePred InRange
  | oct3 a b c => inferInstanceAs (Decidable (64 * (a : ℕ) + 8 * b + c < 256))
  | ordinary _ _ | simple _ | oct1 _ | oct2 _ _ | hex1 _ | hex2 _ _ =>
    inferInstanceAs (Decidable True)

theorem exists_text (i : Item) : ∃ rest, i.text = i.first :: rest := by
  cases i
  all_goals exact ⟨_, rfl⟩

end Item

def bodyText (body : List Item) : List Char := body.flatMap Item.text

def denoted (body : List Item) : List Char := body.map Item.value

/-! ## Digits as the code reads them -/

theorem isOctDigit_octChar (d : Fin 8) : isOctDigit (octChar d) = true := by
  revert d
  decide

theorem simpleEscape_octChar (d : Fin 8) : simpleEscape (octChar d) = none := by
  revert d
  decide

theorem simpleEscape_char (e : SimpleEscape) : simpleEscape e.char = some e.value := by
  cases e <;> rfl

theorem isHexDigit_char (d : HexDigit) : isHexDigit d.char = true := by
  revert d
  decide

theorem octStock {v : ℕ} (hv : v < 64) (d : Fin 8) :
    BitVec.ofNat 32 v <<< 3 ||| BitVec.ofInt 32 (((octChar d).toNat : ℤ) - '0'.toNat) =
      BitVec.ofNat 32 (8 * v + d) := by
  have hall : ∀ (v : Fin 64) (d : Fin 8),
      BitVec.ofNat 32 v <<< 3 ||| BitVec.ofInt 32 (((octChar d).toNat : ℤ) - '0'.toNat) =
        BitVec.ofNat 32 (8 * v + d) := by
    decide +kernel
  exact hall ⟨v, hv⟩ d

end OmniCompiler.CFront
