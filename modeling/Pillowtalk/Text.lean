import Pillowtalk.RoundTrip
import Mathlib.Data.Nat.Digits.Defs

/-!
# JSON texts

A text of a document is any way to write it: white space between the tokens,
escapes in the strings and the spelling of a fraction are free. What a push
parser delivers after some bytes are the callbacks of the tokens that these
bytes finish, and a number is finished by the byte after it.
-/

namespace Pillowtalk

/-! ### Tokens -/

inductive Token where
  | literal (v : Literal)
  | key (k : Bytes)
  | comma
  | colon
  | mapOpen
  | mapClose
  | arrayOpen
  | arrayClose

def Token.callbacks : Token → List Callback
  | .literal v => [v.callback]
  | .key k => [.mapKey k]
  | .comma => []
  | .colon => []
  | .mapOpen => [.startMap]
  | .mapClose => [.endMap]
  | .arrayOpen => [.startArray]
  | .arrayClose => [.endArray]

def Token.isNumber : Token → Bool
  | .literal (.integer _) => true
  | .literal (.double _) => true
  | _ => false

namespace Json

mutual
def tokens : Json → List Token
  | .literal v => [.literal v]
  | .array es => .arrayOpen :: (tokensElems es ++ [.arrayClose])
  | .object ms => .mapOpen :: (tokensMembers ms ++ [.mapClose])
def tokensElems : List Json → List Token
  | [] => []
  | e :: es => e.tokens ++ (if es.isEmpty then [] else .comma :: tokensElems es)
def tokensMembers : List (Bytes × Json) → List Token
  | [] => []
  | (k, v) :: ms =>
    .key k :: .colon :: (v.tokens ++ (if ms.isEmpty then [] else .comma :: tokensMembers ms))
end

end Json

/-! ### Spellings -/

def IsSpace (b : UInt8) : Prop := b = 32 ∨ b = 9 ∨ b = 10 ∨ b = 13

def IsDigit (b : UInt8) : Prop := 48 ≤ b ∧ b ≤ 57

def decimal (n : ℕ) : Bytes := (Nat.toDigits 10 n).map Char.toUInt8

def minus (negative : Bool) : Bytes := if negative then [45] else []

def hexDigit (b : UInt8) : Option ℕ :=
  if 48 ≤ b ∧ b ≤ 57 then some (b.toNat - 48)
  else if 65 ≤ b ∧ b ≤ 70 then some (b.toNat - 55)
  else if 97 ≤ b ∧ b ≤ 102 then some (b.toNat - 87)
  else none

/-- Four hexadecimal digits. -/
def SpellsHex (n : ℕ) (hex : Bytes) : Prop :=
  ∃ ds, List.Forall₂ (fun b d => hexDigit b = some d) hex ds ∧ ds.length = 4 ∧
    Nat.ofDigits 16 ds.reverse = n

/-- The letter that names a character after a backslash. -/
def shortEscapes : List (ℕ × UInt8) :=
  [(34, 34), (92, 92), (47, 47), (8, 98), (12, 102), (10, 110), (13, 114), (9, 116)]

inductive SpellsChar : Char → Bytes → Prop where
  | plain {c : Char} (h : 32 ≤ c.toNat) (hquote : c.toNat ≠ 34) (hback : c.toNat ≠ 92) :
      SpellsChar c (String.utf8EncodeChar c)
  | short {c : Char} {letter : UInt8} (h : (c.toNat, letter) ∈ shortEscapes) :
      SpellsChar c [92, letter]
  | unit {c : Char} {hex : Bytes} (h : SpellsHex c.toNat hex) : SpellsChar c ([92, 117] ++ hex)
  | pair {c : Char} {high low : Bytes} (hc : 0x10000 ≤ c.toNat)
      (hh : SpellsHex (0xd800 + (c.toNat - 0x10000) / 0x400) high)
      (hl : SpellsHex (0xdc00 + (c.toNat - 0x10000) % 0x400) low) :
      SpellsChar c ([92, 117] ++ high ++ [92, 117] ++ low)

/-- The value is what UTF-8 makes of the characters. -/
def SpellsString (s spelling : Bytes) : Prop :=
  ∃ (chars : List Char) (pieces : List Bytes), List.Forall₂ SpellsChar chars pieces ∧
    s = chars.flatMap String.utf8EncodeChar ∧ spelling = [34] ++ pieces.flatten ++ [34]

def IsFraction (f : Bytes) : Prop := f = [] ∨ ∃ ds, ds ≠ [] ∧ (∀ b ∈ ds, IsDigit b) ∧ f = 46 :: ds

def IsExponent (e : Bytes) : Prop :=
  e = [] ∨ ∃ letter sign ds, (letter = 101 ∨ letter = 69) ∧ (sign = [] ∨ sign = [43] ∨ sign = [45]) ∧
    ds ≠ [] ∧ (∀ b ∈ ds, IsDigit b) ∧ e = letter :: (sign ++ ds)

/-- `strtod` reads a number that has a fraction or an exponent. -/
inductive SpellsLiteral (strtod : Bytes → Double) : Literal → Bytes → Prop where
  | null : SpellsLiteral strtod .null [110, 117, 108, 108]
  | false : SpellsLiteral strtod (.boolean Bool.false) [102, 97, 108, 115, 101]
  | true : SpellsLiteral strtod (.boolean Bool.true) [116, 114, 117, 101]
  | integer {i : Int64} {negative : Bool} {n : ℕ}
      (h : i.toInt = if negative then -(n : ℤ) else n) :
      SpellsLiteral strtod (.integer i) (minus negative ++ decimal n)
  | double {negative : Bool} {n : ℕ} {f e : Bytes} (hf : IsFraction f) (he : IsExponent e)
      (hne : f ++ e ≠ []) (hfin : (strtod (minus negative ++ decimal n ++ f ++ e)).isFinite) :
      SpellsLiteral strtod (.double (strtod (minus negative ++ decimal n ++ f ++ e)))
        (minus negative ++ decimal n ++ f ++ e)
  | string {s spelling : Bytes} (h : SpellsString s spelling) :
      SpellsLiteral strtod (.string s) spelling

inductive Spells (strtod : Bytes → Double) : Token → Bytes → Prop where
  | literal {v : Literal} {spelling : Bytes} (h : SpellsLiteral strtod v spelling) :
      Spells strtod (.literal v) spelling
  | key {k spelling : Bytes} (h : SpellsString k spelling) : Spells strtod (.key k) spelling
  | comma : Spells strtod .comma [44]
  | colon : Spells strtod .colon [58]
  | mapOpen : Spells strtod .mapOpen [123]
  | mapClose : Spells strtod .mapClose [125]
  | arrayOpen : Spells strtod .arrayOpen [91]
  | arrayClose : Spells strtod .arrayClose [93]

/-! ### Texts -/

/-- A token as it stands in a text, with the white space before it. -/
structure Lexeme (strtod : Bytes → Double) where
  space : Bytes
  token : Token
  spelling : Bytes
  isSpace : ∀ b ∈ space, IsSpace b
  spells : Spells strtod token spelling

def Lexeme.bytes {strtod : Bytes → Double} (x : Lexeme strtod) : Bytes := x.space ++ x.spelling

structure Text (strtod : Bytes → Double) (j : Json) where
  lexemes : List (Lexeme strtod)
  trailing : Bytes
  tokens : lexemes.map Lexeme.token = j.tokens
  isSpace : ∀ b ∈ trailing, IsSpace b

def Text.bytes {strtod : Bytes → Double} {j : Json} (t : Text strtod j) : Bytes :=
  t.lexemes.flatMap Lexeme.bytes ++ t.trailing

/-! ### No NUL in a text -/

theorem zero_not_mem_utf8EncodeChar {c : Char} (h : 32 ≤ c.toNat) :
    0 ∉ String.utf8EncodeChar c := by
  have hv : 32 ≤ c.val.toNat := h
  have hne : ∀ n : ℕ, n % 256 ≠ 0 → (0 : UInt8) ≠ UInt8.ofNat n := by
    intro n hn he
    have hnat := congrArg UInt8.toNat he
    rw [UInt8.toNat_ofNat'] at hnat
    exact hn hnat.symm
  intro hmem
  simp only [String.utf8EncodeChar] at hmem
  split at hmem
  · exact hne _ (by omega) (List.mem_singleton.mp hmem)
  split at hmem
  · simp only [List.mem_cons, List.not_mem_nil, or_false] at hmem
    rcases hmem with h | h <;> exact hne _ (by omega) h
  split at hmem
  · simp only [List.mem_cons, List.not_mem_nil, or_false] at hmem
    rcases hmem with h | h | h <;> exact hne _ (by omega) h
  · simp only [List.mem_cons, List.not_mem_nil, or_false] at hmem
    rcases hmem with h | h | h | h <;> exact hne _ (by omega) h

theorem SpellsHex.zero_not_mem {n : ℕ} {hex : Bytes} (h : SpellsHex n hex) : 0 ∉ hex := by
  obtain ⟨ds, hds, -⟩ := h
  intro hmem
  induction hds with
  | nil => cases hmem
  | cons hb _ ih =>
    rcases List.mem_cons.mp hmem with rfl | hmem
    · have hzero : hexDigit 0 = none := by decide
      rw [hzero] at hb
      cases hb
    · exact ih hmem

theorem SpellsChar.zero_not_mem {c : Char} {piece : Bytes} (h : SpellsChar c piece) :
    0 ∉ piece := by
  cases h with
  | plain h => exact zero_not_mem_utf8EncodeChar h
  | @short letter h =>
    intro hmem
    have hall : ∀ e ∈ shortEscapes, e.2 ≠ 0 := by decide
    rcases List.mem_cons.mp hmem with h0 | hmem
    · exact absurd h0 (by decide)
    · exact hall _ h (List.mem_singleton.mp hmem).symm
  | unit h => simp [h.zero_not_mem]
  | pair hc hh hl => simp [hh.zero_not_mem, hl.zero_not_mem]

theorem SpellsString.zero_not_mem {s spelling : Bytes} (h : SpellsString s spelling) :
    0 ∉ spelling := by
  obtain ⟨chars, pieces, hpieces, -, rfl⟩ := h
  have hflat : 0 ∉ pieces.flatten := by
    clear s
    induction hpieces with
    | nil => exact List.not_mem_nil
    | cons hc _ ih =>
      rw [List.flatten_cons, List.mem_append]
      exact fun h => h.elim hc.zero_not_mem ih
  simp [hflat]

theorem IsDigit.ne_zero {b : UInt8} (h : IsDigit b) : b ≠ 0 := by
  rintro rfl
  exact absurd h.1 (by decide)

theorem zero_not_mem_digits {ds : Bytes} (h : ∀ b ∈ ds, IsDigit b) : 0 ∉ ds :=
  fun hmem => (h 0 hmem).ne_zero rfl

theorem zero_not_mem_decimal (n : ℕ) : 0 ∉ decimal n := by
  intro hmem
  obtain ⟨c, hc, hzero⟩ := List.mem_map.mp hmem
  have hdigit := Nat.isDigit_of_mem_toDigits (by decide) (by decide) hc
  have hle : 48 ≤ c.val.toNat ∧ c.val.toNat ≤ 57 := by
    simp only [Char.isDigit, Bool.and_eq_true, decide_eq_true_eq] at hdigit
    exact ⟨hdigit.1, hdigit.2⟩
  have hnat := congrArg UInt8.toNat hzero
  simp only [Char.toUInt8, UInt32.toNat_toUInt8, UInt8.toNat_zero] at hnat
  omega

theorem IsFraction.zero_not_mem {f : Bytes} (h : IsFraction f) : 0 ∉ f := by
  rcases h with rfl | ⟨ds, -, hds, rfl⟩
  · exact List.not_mem_nil
  · simp [zero_not_mem_digits hds]

theorem IsExponent.zero_not_mem {e : Bytes} (h : IsExponent e) : 0 ∉ e := by
  rcases h with rfl | ⟨letter, sign, ds, hletter, hsign, -, hds, rfl⟩
  · exact List.not_mem_nil
  · have hl : (0 : UInt8) ≠ letter := by
      rcases hletter with rfl | rfl <;> decide
    have hs : (0 : UInt8) ∉ sign := by
      rcases hsign with rfl | rfl | rfl <;> decide
    simp [hl, hs, zero_not_mem_digits hds]

theorem zero_not_mem_minus (negative : Bool) : 0 ∉ minus negative := by
  cases negative <;> decide

theorem SpellsLiteral.zero_not_mem {strtod : Bytes → Double} {v : Literal} {spelling : Bytes}
    (h : SpellsLiteral strtod v spelling) : 0 ∉ spelling := by
  cases h with
  | null => decide
  | false => decide
  | true => decide
  | integer _ => simp [zero_not_mem_minus, zero_not_mem_decimal]
  | double hf he => simp [zero_not_mem_minus, zero_not_mem_decimal, hf.zero_not_mem, he.zero_not_mem]
  | string h => exact h.zero_not_mem

theorem Spells.zero_not_mem {strtod : Bytes → Double} {token : Token} {spelling : Bytes}
    (h : Spells strtod token spelling) : 0 ∉ spelling := by
  cases h with
  | literal h => exact h.zero_not_mem
  | key h => exact h.zero_not_mem
  | _ => decide

theorem zero_not_mem_space {space : Bytes} (h : ∀ b ∈ space, IsSpace b) : 0 ∉ space := by
  intro hmem
  exact absurd (h 0 hmem) (by unfold IsSpace; decide)

theorem Text.zero_not_mem {strtod : Bytes → Double} {j : Json} (t : Text strtod j) :
    0 ∉ t.bytes := by
  rw [Text.bytes, List.mem_append, List.mem_flatMap]
  rintro (⟨x, -, hmem⟩ | hmem)
  · rcases List.mem_append.mp hmem with hmem | hmem
    · exact zero_not_mem_space x.isSpace hmem
    · exact x.spells.zero_not_mem hmem
  · exact zero_not_mem_space t.isSpace hmem

/-! ### What some bytes of a text deliver -/

/-- All but a closing bracket makes a node. -/
def Callback.stores : Callback → Bool
  | .endMap => false
  | .endArray => false
  | _ => true

section
variable {strtod : Bytes → Double}

/-- The bytes that show that a token is finished. -/
def Lexeme.seen (x : Lexeme strtod) : ℕ := x.bytes.length + if x.token.isNumber then 1 else 0

def Lexeme.callbacks (x : Lexeme strtod) : List Callback := x.token.callbacks

def deliveredBy : List (Lexeme strtod) → ℕ → List Callback
  | [], _ => []
  | x :: xs, n =>
    if x.seen ≤ n then x.callbacks ++ deliveredBy xs (n - x.bytes.length) else []

def Text.delivered {j : Json} (t : Text strtod j) (n : ℕ) : List Callback := deliveredBy t.lexemes n

theorem SpellsString.ne_nil {s spelling : Bytes} (h : SpellsString s spelling) :
    spelling ≠ [] := by
  obtain ⟨chars, pieces, -, -, rfl⟩ := h
  exact fun hnil => by cases hnil

theorem decimal_ne_nil (n : ℕ) : decimal n ≠ [] :=
  fun h => Nat.toDigits_ne_nil (List.map_eq_nil_iff.mp h)

theorem SpellsLiteral.ne_nil {v : Literal} {spelling : Bytes} (h : SpellsLiteral strtod v spelling) :
    spelling ≠ [] := by
  cases h with
  | integer _ => simp [decimal_ne_nil]
  | double hf he => simp [decimal_ne_nil]
  | string h => exact h.ne_nil
  | _ => decide

theorem Spells.ne_nil {token : Token} {spelling : Bytes} (h : Spells strtod token spelling) :
    spelling ≠ [] := by
  cases h with
  | literal h => exact h.ne_nil
  | key h => exact h.ne_nil
  | _ => decide

def Json.isNumber : Json → Bool
  | .literal (.integer _) => true
  | .literal (.double _) => true
  | _ => false

end

end Pillowtalk
