/-
# `InstantTensor.Lib.Json` — JSON texts

A text is cut into tokens, and the tokens are put together to a value; either is done by a system that
takes one character, or one token, after the other.  What is accepted is what Python's `json` accepts:
blanks around tokens, integers of any size, `NaN` and `Infinity`, escapes with pairs of surrogates,
and keys that come twice.  `dict` is what a Python dict keeps of the members of an object.  Left out are
a surrogate on its own, of which Python makes a character, and Python's bounds on the depth of a value
and on the digits of an integer.

`print` writes a value without blanks, as most writers do, and what is read of it is the value again,
whatever blanks follow (`parse_print`).
-/
import Mathlib.Data.List.Basic
import Mathlib.Data.List.Chain
import Mathlib.Data.List.TakeWhile
import InstantTensor.Lib.Runs

namespace InstantTensor

/-! ## Numbers -/

def allDigits (cs : List Char) : Bool := !cs.isEmpty && cs.all Char.isDigit

def unsigned : List Char → List Char
  | '-' :: cs => cs
  | cs => cs

/-- `0|[1-9][0-9]*` -/
def isNatural (cs : List Char) : Bool := allDigits cs && (cs.head? != some '0' || cs.length == 1)

/-- `([eE][-+]?[0-9]+)?` -/
def isExponent : List Char → Bool
  | [] => true
  | c :: '-' :: ds => (c == 'e' || c == 'E') && allDigits ds
  | c :: '+' :: ds => (c == 'e' || c == 'E') && allDigits ds
  | c :: ds => (c == 'e' || c == 'E') && allDigits ds

/-- `(\.[0-9]+)?([eE][-+]?[0-9]+)?`, but not nothing -/
def isFraction : List Char → Bool
  | [] => false
  | '.' :: cs => allDigits (cs.takeWhile Char.isDigit) && isExponent (cs.dropWhile Char.isDigit)
  | cs => isExponent cs

def isInteger (w : List Char) : Bool := isNatural (unsigned w)

/-- The characters of numbers, `true`, `NaN` and the like, which have no end of their own. -/
def isWordChar (c : Char) : Bool := c.isAlphanum || c == '+' || c == '-' || c == '.'

def isFloat (w : List Char) : Bool :=
  w.all isWordChar && (w == "NaN".toList || w == "Infinity".toList || w == "-Infinity".toList ||
    (isNatural ((unsigned w).takeWhile Char.isDigit) &&
      isFraction ((unsigned w).dropWhile Char.isDigit)))

/-- A float, as it is written. -/
structure FloatText where
  chars : List Char
  valid : isFloat chars = true
deriving DecidableEq, Repr

def readInteger (w : List Char) : ℤ :=
  if w.head? = some '-' then -(Nat.ofDigitChars 10 (unsigned w) 0 : ℕ)
  else (Nat.ofDigitChars 10 (unsigned w) 0 : ℕ)

/-! ## Values -/

inductive Json where
  | null
  | bool (b : Bool)
  | int (n : ℤ)
  | float (x : FloatText)
  | str (s : String)
  | arr (vs : List Json)
  /-- The members in their order, with the keys that come twice. -/
  | obj (kvs : List (String × Json))

/-- What `d[k] = v` leaves of a dict: a key that is there keeps its place. -/
def dictSet {α : Type} (k : String) (v : α) (d : List (String × α)) : List (String × α) :=
  if k ∈ d.map Prod.fst then d.map fun e => if e.1 = k then (k, v) else e else d ++ [(k, v)]

/-- The dict of the members of an object. -/
def dict {α : Type} (kvs : List (String × α)) : List (String × α) :=
  kvs.foldl (fun d e => dictSet e.1 e.2 d) []

/-! ### Parts of values -/

def Json.int? : Json → Option ℤ
  | .int n => some n
  | _ => none

def Json.str? : Json → Option String
  | .str s => some s
  | _ => none

def Json.ints? : Json → Option (List ℤ)
  | .arr vs => vs.mapM Json.int?
  | _ => none

def Json.dict? : Json → Option (List (String × Json))
  | .obj kvs => some (dict kvs)
  | _ => none

theorem mapM_map_some {α β : Type} {f : β → Option α} {g : α → β} (h : ∀ a, f (g a) = some a)
    (xs : List α) : (xs.map g).mapM f = some xs := by
  induction xs with
  | nil => rfl
  | cons a xs ih =>
      rw [List.map_cons, List.mapM_cons, h a, ih]
      rfl

theorem Json.ints?_map_int (ns : List ℤ) : (Json.arr (ns.map .int)).ints? = some ns := by
  have hint : ∀ n, Json.int? (.int n) = some n := fun _ => rfl
  exact mapM_map_some hint ns

/-! ## Tokens -/

inductive Token where
  | null
  | bool (b : Bool)
  | int (n : ℤ)
  | float (x : FloatText)
  | str (s : String)
  | openArray
  | closeArray
  | openObject
  | closeObject
  | colon
  | comma
deriving DecidableEq, Repr

def wordToken (w : List Char) : Option Token :=
  if w = "null".toList then some .null
  else if w = "true".toList then some (.bool true)
  else if w = "false".toList then some (.bool false)
  else if isInteger w then some (.int (readInteger w))
  else if h : isFloat w = true then some (.float ⟨w, h⟩)
  else none

def punctuation : Char → Option Token
  | '[' => some .openArray
  | ']' => some .closeArray
  | '\x7b' => some .openObject
  | '\x7d' => some .closeObject
  | ':' => some .colon
  | ',' => some .comma
  | _ => none

def isBlank (c : Char) : Bool := c == ' ' || c == '\t' || c == '\n' || c == '\r'

def hexValue (c : Char) : Option ℕ :=
  if '0' ≤ c ∧ c ≤ '9' then some (c.toNat - '0'.toNat)
  else if 'a' ≤ c ∧ c ≤ 'f' then some (c.toNat - 'a'.toNat + 10)
  else if 'A' ≤ c ∧ c ≤ 'F' then some (c.toNat - 'A'.toNat + 10)
  else none

/-- What a character stands for behind a backslash. -/
def unescape : Char → Option Char
  | '"' => some '"'
  | '\\' => some '\\'
  | '/' => some '/'
  | 'b' => some '\x08'
  | 'f' => some '\x0c'
  | 'n' => some '\n'
  | 'r' => some '\r'
  | 't' => some '\t'
  | _ => none

/-- What is being read; words and strings are kept backwards. -/
inductive Scan where
  | between
  | word (w : List Char)
  /-- In a string, perhaps behind the high one of two surrogates. -/
  | text (s : List Char) (high : Option ℕ)
  | escape (s : List Char) (high : Option ℕ)
  | unicode (s : List Char) (high : Option ℕ) (digits code : ℕ)
deriving DecidableEq, Repr

/-- The tokens so far, the last one first. -/
structure Lexer where
  tokens : List Token
  scan : Scan
deriving DecidableEq, Repr

/-- Behind the four digits of a `\u`. -/
def codeUnit (s : List Char) (high : Option ℕ) (code : ℕ) : Option Scan :=
  match high with
  | some high =>
      if 0xDC00 ≤ code ∧ code < 0xE000 then
        some (.text (Char.ofNat (0x10000 + (high - 0xD800) * 0x400 + (code - 0xDC00)) :: s) none)
      else none
  | none =>
      if 0xD800 ≤ code ∧ code < 0xDC00 then some (.text s (some code))
      else if 0xDC00 ≤ code ∧ code < 0xE000 then none
      else some (.text (Char.ofNat code :: s) none)

namespace Lexer

/-- A character between the tokens. -/
def start (tokens : List Token) (c : Char) : Option Lexer :=
  if isBlank c then some ⟨tokens, .between⟩
  else if c = '"' then some ⟨tokens, .text [] none⟩
  else if isWordChar c then some ⟨tokens, .word [c]⟩
  else (punctuation c).map fun t => ⟨t :: tokens, .between⟩

def next (c : Char) (s : Lexer) : Option Lexer :=
  match s.scan with
  | .between => start s.tokens c
  | .word w =>
      if isWordChar c then some { s with scan := .word (c :: w) }
      else (wordToken w.reverse).bind fun t => start (t :: s.tokens) c
  | .text cs none =>
      if c = '"' then some ⟨.str (String.ofList cs.reverse) :: s.tokens, .between⟩
      else if c = '\\' then some { s with scan := .escape cs none }
      else if c.toNat < 0x20 then none
      else some { s with scan := .text (c :: cs) none }
  | .text cs (some high) =>
      if c = '\\' then some { s with scan := .escape cs (some high) } else none
  | .escape cs high =>
      if c = 'u' then some { s with scan := .unicode cs high 0 0 }
      else if high.isSome then none
      else (unescape c).map fun d => { s with scan := .text (d :: cs) none }
  | .unicode cs high digits code =>
      (hexValue c).bind fun d =>
        if digits = 3 then (codeUnit cs high (16 * code + d)).map fun σ => { s with scan := σ }
        else some { s with scan := .unicode cs high (digits + 1) (16 * code + d) }

end Lexer

/-- The tokens of a text; the blank ends a word. -/
def lex (cs : List Char) : Option (List Token) :=
  (exec Lexer.next (cs ++ [' ']) ⟨[], .between⟩).bind fun s =>
    if s.scan = .between then some s.tokens.reverse else none

/-! ## Parsing -/

/-- An array or object that is open; its elements are kept backwards. -/
inductive Frame where
  | array (vs : List Json)
  | object (kvs : List (String × Json)) (k : String)

/-- What comes next. -/
inductive Due where
  | value
  /-- The first element of an array, or its end. -/
  | element
  /-- The first member of an object, or its end. -/
  | member
  | key (kvs : List (String × Json))
  | colon (kvs : List (String × Json)) (k : String)
  /-- This value is complete. -/
  | behind (v : Json)

structure Parser where
  due : Due
  stack : List Frame

namespace Parser

/-- A token where a value is due. -/
def start (stack : List Frame) : Token → Option Parser
  | .null => some ⟨.behind .null, stack⟩
  | .bool b => some ⟨.behind (.bool b), stack⟩
  | .int n => some ⟨.behind (.int n), stack⟩
  | .float x => some ⟨.behind (.float x), stack⟩
  | .str s => some ⟨.behind (.str s), stack⟩
  | .openArray => some ⟨.element, stack⟩
  | .openObject => some ⟨.member, stack⟩
  | _ => none

def next (t : Token) (p : Parser) : Option Parser :=
  match p.due, t, p.stack with
  | .element, .closeArray, fs => some ⟨.behind (.arr []), fs⟩
  | .element, t, fs => start (.array [] :: fs) t
  | .value, t, fs => start fs t
  | .member, .closeObject, fs => some ⟨.behind (.obj []), fs⟩
  | .member, .str k, fs => some ⟨.colon [] k, fs⟩
  | .key kvs, .str k, fs => some ⟨.colon kvs k, fs⟩
  | .colon kvs k, .colon, fs => some ⟨.value, .object kvs k :: fs⟩
  | .behind v, .comma, .array vs :: fs => some ⟨.value, .array (v :: vs) :: fs⟩
  | .behind v, .closeArray, .array vs :: fs => some ⟨.behind (.arr (v :: vs).reverse), fs⟩
  | .behind v, .comma, .object kvs k :: fs => some ⟨.key ((k, v) :: kvs), fs⟩
  | .behind v, .closeObject, .object kvs k :: fs => some ⟨.behind (.obj ((k, v) :: kvs).reverse), fs⟩
  | _, _, _ => none

/-- The value, where all is closed. -/
def result : Parser → Option Json
  | ⟨.behind v, []⟩ => some v
  | _ => none

end Parser

def assemble (ts : List Token) : Option Json :=
  (exec Parser.next ts ⟨.value, []⟩).bind Parser.result

/-- `json.loads` of a `str`. -/
def Json.parse (cs : List Char) : Option Json := (lex cs).bind assemble

/-! ## Printing -/

mutual
def Json.tokens : Json → List Token
  | .null => [.null]
  | .bool b => [.bool b]
  | .int n => [.int n]
  | .float x => [.float x]
  | .str s => [.str s]
  | .arr [] => [.openArray, .closeArray]
  | .arr (v :: vs) => .openArray :: (v.tokens ++ furtherElements vs)
  | .obj [] => [.openObject, .closeObject]
  | .obj ((k, v) :: kvs) => .openObject :: .str k :: .colon :: (v.tokens ++ furtherMembers kvs)

def furtherElements : List Json → List Token
  | [] => [.closeArray]
  | v :: vs => .comma :: (v.tokens ++ furtherElements vs)

def furtherMembers : List (String × Json) → List Token
  | [] => [.closeObject]
  | (k, v) :: kvs => .comma :: .str k :: .colon :: (v.tokens ++ furtherMembers kvs)
end

/-- The characters that have an escape of one letter. -/
def shortEscape : Char → Option Char
  | '"' => some '"'
  | '\\' => some '\\'
  | '\x08' => some 'b'
  | '\x0c' => some 'f'
  | '\n' => some 'n'
  | '\r' => some 'r'
  | '\t' => some 't'
  | _ => none

def escape (c : Char) : List Char :=
  match shortEscape c with
  | some d => ['\\', d]
  | none =>
      if c.toNat < 0x20 then
        ['\\', 'u', '0', '0', (c.toNat / 16).digitChar, (c.toNat % 16).digitChar]
      else [c]

def printInteger (n : ℤ) : List Char :=
  if n < 0 then '-' :: Nat.toDigits 10 n.natAbs else Nat.toDigits 10 n.natAbs

def Token.print : Token → List Char
  | .null => "null".toList
  | .bool true => "true".toList
  | .bool false => "false".toList
  | .int n => printInteger n
  | .float x => x.chars
  | .str s => '"' :: (s.toList.flatMap escape ++ ['"'])
  | .openArray => ['[']
  | .closeArray => [']']
  | .openObject => ['\x7b']
  | .closeObject => ['\x7d']
  | .colon => [':']
  | .comma => [',']

def Token.isWord : Token → Bool
  | .null | .bool _ | .int _ | .float _ => true
  | _ => false

def Json.print (v : Json) : List Char := v.tokens.flatMap Token.print

/-- Two things that a test tells apart. -/
theorem ne_of_test {α : Type} {test : α → Bool} {a b : α} (ha : test a = true) (hb : test b = false) :
    a ≠ b := by
  rintro rfl
  exact Bool.false_ne_true (hb.symm.trans ha)

/-! ## Numbers are read back -/

theorem head?_toDigits {n : ℕ} (hn : 0 < n) : (Nat.toDigits 10 n).head? ≠ some '0' := by
  induction n using Nat.strong_induction_on with
  | _ n ih =>
    by_cases hlt : n < 10
    · rw [Nat.toDigits_of_lt_base hlt, List.head?_cons]
      intro hzero
      exact Nat.ne_of_gt hn (Nat.digitChar_eq_zero.mp (Option.some.inj hzero))
    · have hle : 10 ≤ n := Nat.le_of_not_lt hlt
      rw [Nat.toDigits_of_base_le (by decide) hle, List.head?_append_of_ne_nil _ Nat.toDigits_ne_nil]
      exact ih (n / 10) (Nat.div_lt_self hn (by decide)) (Nat.div_pos hle (by decide))

theorem allDigits_toDigits (n : ℕ) : allDigits (Nat.toDigits 10 n) = true := by
  have hdigits : (Nat.toDigits 10 n).all Char.isDigit = true :=
    List.all_eq_true.mpr fun c hc => Nat.isDigit_of_mem_toDigits (by decide) (by decide) hc
  rw [allDigits, hdigits, Bool.and_true, Bool.not_eq_true', List.isEmpty_eq_false_iff]
  exact Nat.toDigits_ne_nil

theorem isNatural_toDigits (n : ℕ) : isNatural (Nat.toDigits 10 n) = true := by
  rw [isNatural, allDigits_toDigits, Bool.true_and, Bool.or_eq_true]
  rcases Nat.eq_zero_or_pos n with rfl | hn
  · exact .inr rfl
  · exact .inl (bne_iff_ne.mpr (head?_toDigits hn))

theorem unsigned_of_allDigits {w : List Char} (h : allDigits w = true) :
    unsigned w = w ∧ w.head? ≠ some '-' := by
  cases w with
  | nil => cases h
  | cons c w =>
      have hc : c ≠ '-' := by
        rw [allDigits, List.all_cons] at h
        exact ne_of_test (Bool.and_eq_true_iff.mp (Bool.and_eq_true_iff.mp h).2).1 (by decide)
      constructor
      · unfold unsigned
        split
        · next heq => exact absurd (List.cons.inj heq).1 hc
        · rfl
      · intro heq
        exact hc (Option.some.inj heq)

theorem isInteger_printInteger (n : ℤ) :
    isInteger (printInteger n) = true ∧ readInteger (printInteger n) = n := by
  have hdigits := allDigits_toDigits n.natAbs
  obtain ⟨hunsigned, hhead⟩ := unsigned_of_allDigits hdigits
  unfold printInteger
  split
  · next hneg =>
      refine ⟨isNatural_toDigits _, ?_⟩
      rw [readInteger, List.head?_cons, if_pos rfl, unsigned, Nat.ofDigitChars_ten_toDigits]
      omega
  · next hpos =>
      rw [isInteger, hunsigned, readInteger, if_neg hhead, hunsigned, Nat.ofDigitChars_ten_toDigits]
      exact ⟨isNatural_toDigits _, by omega⟩

/-- What is left of a float behind its digits is not nothing, so it is not an integer. -/
theorem isInteger_of_isFloat {w : List Char} (h : isFloat w = true) : isInteger w = false := by
  obtain ⟨-, h⟩ := Bool.and_eq_true_iff.mp h
  rw [Bool.or_eq_true, Bool.or_eq_true, Bool.or_eq_true] at h
  rcases h with ((h | h) | h) | h
  · rw [eq_of_beq h]
    decide
  · rw [eq_of_beq h]
    decide
  · rw [eq_of_beq h]
    decide
  · obtain ⟨-, hfraction⟩ := Bool.and_eq_true_iff.mp h
    rw [isInteger, isNatural, allDigits]
    cases hall : (unsigned w).all Char.isDigit with
    | false => rw [Bool.and_false, Bool.false_and]
    | true =>
        have hnothing : (unsigned w).dropWhile Char.isDigit = [] :=
          List.dropWhile_eq_nil_iff.mpr (List.all_eq_true.mp hall)
        rw [hnothing] at hfraction
        cases hfraction

theorem wordToken_of_isInteger {w : List Char} (h : isInteger w = true) :
    wordToken w = some (.int (readInteger w)) := by
  have hnull : w ≠ "null".toList := ne_of_test h (by decide)
  have htrue : w ≠ "true".toList := ne_of_test h (by decide)
  have hfalse : w ≠ "false".toList := ne_of_test h (by decide)
  rw [wordToken, if_neg hnull, if_neg htrue, if_neg hfalse, if_pos h]

theorem wordToken_float (x : FloatText) : wordToken x.chars = some (.float x) := by
  have hnull : x.chars ≠ "null".toList := ne_of_test x.valid (by decide)
  have htrue : x.chars ≠ "true".toList := ne_of_test x.valid (by decide)
  have hfalse : x.chars ≠ "false".toList := ne_of_test x.valid (by decide)
  rw [wordToken, if_neg hnull, if_neg htrue, if_neg hfalse, isInteger_of_isFloat x.valid,
    if_neg Bool.false_ne_true, dif_pos x.valid]

/-! ## Tokens are read back -/

theorem not_blank_of_isWordChar {c : Char} (h : isWordChar c = true) : isBlank c = false ∧ c ≠ '"' := by
  have hspace : c ≠ ' ' := ne_of_test h (by decide)
  have htab : c ≠ '\t' := ne_of_test h (by decide)
  have hnewline : c ≠ '\n' := ne_of_test h (by decide)
  have hreturn : c ≠ '\r' := ne_of_test h (by decide)
  refine ⟨?_, ne_of_test h (by decide)⟩
  rw [isBlank, beq_false_of_ne hspace, beq_false_of_ne htab, beq_false_of_ne hnewline,
    beq_false_of_ne hreturn]
  rfl

theorem isWordChar_of_isDigit {c : Char} (h : c.isDigit = true) : isWordChar c = true := by
  rw [isWordChar, Char.isAlphanum, h, Bool.or_true]
  rfl

theorem isWordChar_of_mem_printInteger {n : ℤ} {c : Char} (h : c ∈ printInteger n) :
    isWordChar c = true := by
  have hdigits : ∀ c ∈ Nat.toDigits 10 n.natAbs, isWordChar c = true := fun c hc =>
    isWordChar_of_isDigit (Nat.isDigit_of_mem_toDigits (by decide) (by decide) hc)
  unfold printInteger at h
  split at h
  · rcases List.mem_cons.mp h with rfl | h
    · decide
    · exact hdigits c h
  · exact hdigits c h

section
variable {ts : List Token} {rest : List Char}

theorem exec_word {w : List Char} (hw : ∀ c ∈ w, isWordChar c = true) (u : List Char) :
    exec Lexer.next (w ++ rest) ⟨ts, .word u⟩ = exec Lexer.next rest ⟨ts, .word (w.reverse ++ u)⟩ := by
  induction w generalizing u with
  | nil => rfl
  | cons c w ih =>
      have hc : Lexer.next c ⟨ts, .word u⟩ = some ⟨ts, .word (c :: u)⟩ :=
        if_pos (hw c List.mem_cons_self)
      rw [List.cons_append, exec, hc, Option.bind_some, ih fun d hd => hw d (List.mem_cons_of_mem c hd),
        List.reverse_cons, List.append_assoc]
      rfl

/-- A word ends where a character follows that is not of words. -/
theorem exec_wordToken {w : List Char} {t : Token} (hne : w ≠ []) (hw : ∀ c ∈ w, isWordChar c = true)
    (ht : wordToken w = some t) {d : Char} (hd : isWordChar d = false) :
    exec Lexer.next (w ++ d :: rest) ⟨ts, .between⟩
      = exec Lexer.next (d :: rest) ⟨t :: ts, .between⟩ := by
  cases w with
  | nil => exact absurd rfl hne
  | cons c w =>
      have hc := hw c List.mem_cons_self
      obtain ⟨hblank, hquote⟩ := not_blank_of_isWordChar hc
      have hstart : Lexer.next c ⟨ts, .between⟩ = some ⟨ts, .word [c]⟩ := by
        rw [Lexer.next, Lexer.start, hblank, if_neg Bool.false_ne_true, if_neg hquote, if_pos hc]
      have hend : Lexer.next d ⟨ts, .word (w.reverse ++ [c])⟩ = Lexer.next d ⟨t :: ts, .between⟩ := by
        simp only [Lexer.next, hd, Bool.false_eq_true, if_false, List.reverse_append, List.reverse_reverse,
          List.reverse_singleton, List.singleton_append, ht, Option.bind_some]
      rw [List.cons_append, exec, hstart, Option.bind_some,
        exec_word fun e he => hw e (List.mem_cons_of_mem c he), exec, hend, exec]

theorem hexValue_digitChar : ∀ d < 16, hexValue d.digitChar = some d := by decide

theorem unescape_shortEscape {c d : Char} (h : shortEscape c = some d) :
    unescape d = some c ∧ d ≠ 'u' := by
  unfold shortEscape at h
  split at h
  all_goals
    cases h
    try exact ⟨rfl, by decide⟩

/-- A character of a string, escaped, is read as this character. -/
theorem exec_escape (c : Char) (cs : List Char) :
    exec Lexer.next (escape c ++ rest) ⟨ts, .text cs none⟩
      = exec Lexer.next rest ⟨ts, .text (c :: cs) none⟩ := by
  have hslash : Lexer.next '\\' ⟨ts, .text cs none⟩ = some ⟨ts, .escape cs none⟩ := rfl
  cases hshort : shortEscape c with
  | some d =>
      obtain ⟨hd, hu⟩ := unescape_shortEscape hshort
      have hnext : Lexer.next d ⟨ts, .escape cs none⟩ = some ⟨ts, .text (c :: cs) none⟩ := by
        simp only [Lexer.next, if_neg hu, hd, Option.isSome_none, Bool.false_eq_true, if_false,
          Option.map_some]
      simp only [escape, hshort, List.cons_append, List.nil_append, exec, hslash, hnext,
        Option.bind_some]
  | none =>
      by_cases hcontrol : c.toNat < 0x20
      · have hhigh := hexValue_digitChar (c.toNat / 16) (by omega)
        have hlow := hexValue_digitChar (c.toNat % 16) (by omega)
        have hescape : escape c ++ rest = ['\\', 'u', '0', '0'] ++
            (c.toNat / 16).digitChar :: (c.toNat % 16).digitChar :: rest := by
          simp only [escape, hshort, if_pos hcontrol]
          rfl
        have hzeros : exec Lexer.next ['\\', 'u', '0', '0'] ⟨ts, .text cs none⟩
            = some ⟨ts, .unicode cs none 2 0⟩ := rfl
        have hnext : Lexer.next (c.toNat / 16).digitChar ⟨ts, .unicode cs none 2 0⟩
            = some ⟨ts, .unicode cs none 3 (c.toNat / 16)⟩ := by
          simp [Lexer.next, hhigh]
        have hlast : Lexer.next (c.toNat % 16).digitChar ⟨ts, .unicode cs none 3 (c.toNat / 16)⟩
            = some ⟨ts, .text (c :: cs) none⟩ := by
          have hcode : codeUnit cs none c.toNat = some (.text (c :: cs) none) := by
            rw [codeUnit, if_neg (by omega), if_neg (by omega), Char.ofNat_toNat]
          simp [Lexer.next, hlow, Nat.div_add_mod, hcode]
        rw [hescape, exec_append, hzeros, Option.bind_some, exec, hnext, Option.bind_some, exec, hlast,
          Option.bind_some]
      · have hnext : Lexer.next c ⟨ts, .text cs none⟩ = some ⟨ts, .text (c :: cs) none⟩ := by
          have hquote : c ≠ '"' := by
            rintro rfl
            cases hshort
          have hslash : c ≠ '\\' := by
            rintro rfl
            cases hshort
          simp only [Lexer.next, if_neg hquote, if_neg hslash, if_neg hcontrol]
        simp only [escape, hshort, if_neg hcontrol, List.singleton_append, exec, hnext,
          Option.bind_some]

theorem exec_escapes (s cs : List Char) :
    exec Lexer.next (s.flatMap escape ++ rest) ⟨ts, .text cs none⟩
      = exec Lexer.next rest ⟨ts, .text (s.reverse ++ cs) none⟩ := by
  induction s generalizing cs with
  | nil => rfl
  | cons c s ih =>
      rw [List.flatMap_cons, List.append_assoc, exec_escape, ih, List.reverse_cons, List.append_assoc]
      rfl

/-- A token that is not a word is read back. -/
theorem exec_mark {t : Token} (h : t.isWord = false) :
    exec Lexer.next (t.print ++ rest) ⟨ts, .between⟩ = exec Lexer.next rest ⟨t :: ts, .between⟩ := by
  cases t with
  | null => cases h
  | bool b => cases h
  | int n => cases h
  | float x => cases h
  | str s =>
      have hopen : Lexer.next '"' ⟨ts, .between⟩ = some ⟨ts, .text [] none⟩ := rfl
      have hclose : Lexer.next '"' ⟨ts, .text s.toList.reverse none⟩ = some ⟨.str s :: ts, .between⟩ := by
        simp [Lexer.next]
      rw [Token.print, List.cons_append, List.append_assoc, exec, hopen, Option.bind_some, exec_escapes,
        List.append_nil, List.singleton_append, exec, hclose, Option.bind_some]
  | openArray => rfl
  | closeArray => rfl
  | openObject => rfl
  | closeObject => rfl
  | colon => rfl
  | comma => rfl

theorem print_of_mark {t : Token} (h : t.isWord = false) :
    ∃ d cs, t.print = d :: cs ∧ isWordChar d = false := by
  cases t with
  | null => cases h
  | bool b => cases h
  | int n => cases h
  | float x => cases h
  | str s => exact ⟨_, _, rfl, by decide⟩
  | openArray => exact ⟨_, _, rfl, by decide⟩
  | closeArray => exact ⟨_, _, rfl, by decide⟩
  | openObject => exact ⟨_, _, rfl, by decide⟩
  | closeObject => exact ⟨_, _, rfl, by decide⟩
  | colon => exact ⟨_, _, rfl, by decide⟩
  | comma => exact ⟨_, _, rfl, by decide⟩

/-- Any token is read back in front of what is not of words. -/
theorem exec_token (t : Token) {d : Char} (hd : isWordChar d = false) :
    exec Lexer.next (t.print ++ d :: rest) ⟨ts, .between⟩
      = exec Lexer.next (d :: rest) ⟨t :: ts, .between⟩ := by
  cases hword : t.isWord with
  | false => exact exec_mark hword
  | true =>
      cases t with
      | null => exact exec_wordToken (by decide) (List.all_eq_true.mp rfl) (by decide) hd
      | bool b =>
          cases b with
          | false => exact exec_wordToken (by decide) (List.all_eq_true.mp rfl) (by decide) hd
          | true => exact exec_wordToken (by decide) (List.all_eq_true.mp rfl) (by decide) hd
      | int n =>
          obtain ⟨hinteger, hread⟩ := isInteger_printInteger n
          have htoken : wordToken (printInteger n) = some (.int n) := by
            rw [wordToken_of_isInteger hinteger, hread]
          exact exec_wordToken (ne_of_test hinteger (by decide))
            (fun c hc => isWordChar_of_mem_printInteger hc) htoken hd
      | float x =>
          have hchars := List.all_eq_true.mp (Bool.and_eq_true_iff.mp x.valid).1
          exact exec_wordToken (ne_of_test x.valid (by decide)) hchars (wordToken_float x) hd
      | _ => cases hword

/-- No word is next to a word. -/
def Apart (ts : List Token) : Prop := ts.IsChain fun t u => t.isWord = false ∨ u.isWord = false

theorem exec_tokens {us : List Token} (h : Apart us) {d : Char} (hd : isWordChar d = false) :
    exec Lexer.next (us.flatMap Token.print ++ d :: rest) ⟨ts, .between⟩
      = exec Lexer.next (d :: rest) ⟨us.reverse ++ ts, .between⟩ := by
  induction us generalizing ts with
  | nil => rfl
  | cons t us ih =>
      rw [List.flatMap_cons, List.append_assoc, List.reverse_cons, List.append_assoc,
        List.singleton_append]
      refine Eq.trans ?_ (ih h.tail)
      cases us with
      | nil => exact exec_token t hd
      | cons u us =>
          rcases (List.isChain_cons_cons.mp h).1 with ht | hu
          · exact exec_mark ht
          · obtain ⟨e, cs, hprint, he⟩ := print_of_mark hu
            rw [List.flatMap_cons, hprint]
            exact exec_token t he

theorem exec_blanks {cs : List Char} (h : ∀ c ∈ cs, isBlank c = true) :
    exec Lexer.next cs ⟨ts, .between⟩ = some ⟨ts, .between⟩ := by
  induction cs with
  | nil => rfl
  | cons c cs ih =>
      have hc : Lexer.next c ⟨ts, .between⟩ = some ⟨ts, .between⟩ := if_pos (h c List.mem_cons_self)
      rw [exec, hc, Option.bind_some]
      exact ih fun d hd => h d (List.mem_cons_of_mem c hd)

end

theorem apart_cons {t : Token} {ts : List Token} (ht : t.isWord = false) (h : Apart ts) :
    Apart (t :: ts) := by
  cases ts with
  | nil => exact .singleton _
  | cons u us => exact List.isChain_cons_cons.mpr ⟨.inl ht, h⟩

theorem apart_append {ts us : List Token} {u : Token} (hu : u.isWord = false) (h : Apart ts)
    (h' : Apart (u :: us)) : Apart (ts ++ u :: us) := by
  refine List.isChain_append.mpr ⟨h, h', ?_⟩
  intro t _ v hv
  obtain rfl := Option.some.inj hv
  exact .inr hu

mutual
theorem Json.apart_tokens : ∀ v : Json, Apart v.tokens
  | .null => .singleton _
  | .bool _ => .singleton _
  | .int _ => .singleton _
  | .float _ => .singleton _
  | .str _ => .singleton _
  | .arr [] => apart_cons rfl (.singleton _)
  | .arr (v :: vs) => by
      obtain ⟨t, ts, htokens, ht, hvs⟩ := apart_furtherElements vs
      rw [Json.tokens, htokens]
      exact apart_cons rfl (apart_append ht v.apart_tokens hvs)
  | .obj [] => apart_cons rfl (.singleton _)
  | .obj ((_, v) :: kvs) => by
      obtain ⟨t, ts, htokens, ht, hkvs⟩ := apart_furtherMembers kvs
      rw [Json.tokens, htokens]
      exact apart_cons rfl (apart_cons rfl (apart_cons rfl (apart_append ht v.apart_tokens hkvs)))

theorem apart_furtherElements : ∀ vs : List Json,
    ∃ t ts, furtherElements vs = t :: ts ∧ t.isWord = false ∧ Apart (t :: ts)
  | [] => ⟨_, _, rfl, rfl, .singleton _⟩
  | v :: vs => by
      obtain ⟨t, ts, htokens, ht, hvs⟩ := apart_furtherElements vs
      rw [furtherElements, htokens]
      exact ⟨_, _, rfl, rfl, apart_cons rfl (apart_append ht v.apart_tokens hvs)⟩

theorem apart_furtherMembers : ∀ kvs : List (String × Json),
    ∃ t ts, furtherMembers kvs = t :: ts ∧ t.isWord = false ∧ Apart (t :: ts)
  | [] => ⟨_, _, rfl, rfl, .singleton _⟩
  | (_, v) :: kvs => by
      obtain ⟨t, ts, htokens, ht, hkvs⟩ := apart_furtherMembers kvs
      rw [furtherMembers, htokens]
      exact ⟨_, _, rfl, rfl,
        apart_cons rfl (apart_cons rfl (apart_cons rfl (apart_append ht v.apart_tokens hkvs)))⟩
end

theorem lex_print (v : Json) {blanks : List Char} (hblanks : ∀ c ∈ blanks, isBlank c = true) :
    lex (v.print ++ blanks) = some v.tokens := by
  have hall : ∀ c ∈ blanks ++ [' '], isBlank c = true := by
    intro c hc
    rcases List.mem_append.mp hc with hc | hc
    · exact hblanks c hc
    · obtain rfl := List.mem_singleton.mp hc
      rfl
  obtain ⟨d, cs, hcs⟩ : ∃ d cs, blanks ++ [' '] = d :: cs :=
    List.exists_cons_of_ne_nil (List.append_ne_nil_of_right_ne_nil _ (List.cons_ne_nil _ _))
  rw [hcs] at hall
  have hd : isWordChar d = false := by
    cases hword : isWordChar d with
    | false => rfl
    | true =>
        have hblank := hall d List.mem_cons_self
        rw [(not_blank_of_isWordChar hword).1] at hblank
        cases hblank
  rw [lex, List.append_assoc, hcs, Json.print, exec_tokens v.apart_tokens hd, exec_blanks hall,
    List.append_nil, Option.bind_some, if_pos rfl, List.reverse_reverse]

/-! ## Values are read back -/

theorem exec_element (v : Json) (fs : List Frame) :
    exec Parser.next v.tokens ⟨.element, fs⟩ = exec Parser.next v.tokens ⟨.value, .array [] :: fs⟩ := by
  cases v with
  | arr vs =>
      cases vs with
      | nil => rfl
      | cons v vs => rfl
  | obj kvs =>
      cases kvs with
      | nil => rfl
      | cons e kvs => rfl
  | _ => rfl

mutual
theorem exec_value : ∀ (v : Json) (fs : List Frame),
    exec Parser.next v.tokens ⟨.value, fs⟩ = some ⟨.behind v, fs⟩
  | .null, _ => rfl
  | .bool _, _ => rfl
  | .int _, _ => rfl
  | .float _, _ => rfl
  | .str _, _ => rfl
  | .arr [], _ => rfl
  | .arr (v :: vs), fs => by
      have hopen : Parser.next .openArray ⟨.value, fs⟩ = some ⟨.element, fs⟩ := rfl
      rw [Json.tokens, exec, hopen, Option.bind_some, exec_append, exec_element, exec_value v,
        Option.bind_some, exec_furtherElements vs]
      rfl
  | .obj [], _ => rfl
  | .obj ((k, v) :: kvs), fs => by
      have hopen : Parser.next .openObject ⟨.value, fs⟩ = some ⟨.member, fs⟩ := rfl
      have hkey : Parser.next (.str k) ⟨.member, fs⟩ = some ⟨.colon [] k, fs⟩ := rfl
      have hcolon : Parser.next .colon ⟨.colon [] k, fs⟩ = some ⟨.value, .object [] k :: fs⟩ := rfl
      rw [Json.tokens, exec, hopen, Option.bind_some, exec, hkey, Option.bind_some, exec, hcolon,
        Option.bind_some, exec_append, exec_value v, Option.bind_some, exec_furtherMembers kvs]
      rfl

theorem exec_furtherElements : ∀ (vs : List Json) (v : Json) (us : List Json) (fs : List Frame),
    exec Parser.next (furtherElements vs) ⟨.behind v, .array us :: fs⟩
      = some ⟨.behind (.arr ((v :: us).reverse ++ vs)), fs⟩
  | [], v, us, fs => by
      rw [List.append_nil]
      rfl
  | w :: vs, v, us, fs => by
      have hcomma : Parser.next .comma ⟨.behind v, .array us :: fs⟩
          = some ⟨.value, .array (v :: us) :: fs⟩ := rfl
      rw [furtherElements, exec, hcomma, Option.bind_some, exec_append, exec_value w, Option.bind_some,
        exec_furtherElements vs, List.reverse_cons, List.append_assoc]
      rfl

theorem exec_furtherMembers : ∀ (kvs : List (String × Json)) (k : String) (v : Json)
    (us : List (String × Json)) (fs : List Frame),
    exec Parser.next (furtherMembers kvs) ⟨.behind v, .object us k :: fs⟩
      = some ⟨.behind (.obj (((k, v) :: us).reverse ++ kvs)), fs⟩
  | [], k, v, us, fs => by
      rw [List.append_nil]
      rfl
  | (k', w) :: kvs, k, v, us, fs => by
      have hcomma : Parser.next .comma ⟨.behind v, .object us k :: fs⟩
          = some ⟨.key ((k, v) :: us), fs⟩ := rfl
      have hkey : Parser.next (.str k') ⟨.key ((k, v) :: us), fs⟩
          = some ⟨.colon ((k, v) :: us) k', fs⟩ := rfl
      have hcolon : Parser.next .colon ⟨.colon ((k, v) :: us) k', fs⟩
          = some ⟨.value, .object ((k, v) :: us) k' :: fs⟩ := rfl
      rw [furtherMembers, exec, hcomma, Option.bind_some, exec, hkey, Option.bind_some, exec, hcolon,
        Option.bind_some, exec_append, exec_value w, Option.bind_some, exec_furtherMembers kvs,
        List.reverse_cons, List.append_assoc]
      rfl
end

/-- **What is printed is read again**, whatever blanks follow. -/
theorem Json.parse_print (v : Json) {blanks : List Char} (hblanks : ∀ c ∈ blanks, isBlank c = true) :
    Json.parse (v.print ++ blanks) = some v := by
  rw [Json.parse, lex_print v hblanks, Option.bind_some, assemble, exec_value v, Option.bind_some]
  rfl

/-! ## Dicts -/

theorem dictSet_of_notMem {α : Type} {k : String} {v : α} {d : List (String × α)}
    (h : k ∉ d.map Prod.fst) : dictSet k v d = d ++ [(k, v)] := if_neg h

theorem foldl_dictSet {α : Type} {kvs d : List (String × α)}
    (h : ((d ++ kvs).map Prod.fst).Nodup) :
    kvs.foldl (fun d e => dictSet e.1 e.2 d) d = d ++ kvs := by
  induction kvs generalizing d with
  | nil => rw [List.foldl_nil, List.append_nil]
  | cons e kvs ih =>
      have hnew : e.1 ∉ d.map Prod.fst := by
        intro hmem
        rw [List.map_append, List.map_cons] at h
        exact (List.nodup_append.mp h).2.2 _ hmem _ List.mem_cons_self rfl
      rw [List.foldl_cons, dictSet_of_notMem hnew, ih (by rwa [List.append_assoc, List.singleton_append]),
        List.append_assoc, List.singleton_append]

/-- A dict has all members of an object whose keys are different. -/
theorem dict_of_nodup {α : Type} {kvs : List (String × α)} (h : (kvs.map Prod.fst).Nodup) :
    dict kvs = kvs := foldl_dictSet h

end InstantTensor
