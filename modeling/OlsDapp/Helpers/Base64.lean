import OlsDapp.Lib.Base64

/-!
# URL-safe base64

`helpers.ts` writes base64 with `-` and `_` for `+` and `/` and without its padding. The way
back rebuilds the padding from the length of the text alone, so it rests on what the encoder
writes: digits, and as many `=` as fill the last group of four.
-/

namespace OlsDapp.Helpers

open Lib Lib.Base64

/-! ## The helpers -/

/-- `str.replace(/a/g, 'b')`. -/
def replaceAll (a b : Char) (str : List Char) : List Char :=
  str.map fun c => if c = a then b else c

/-- `str.replace(/a/g, '')`. -/
def removeAll (a : Char) (str : List Char) : List Char :=
  str.filter fun c => c ≠ a

def escape (str : List Char) : List Char :=
  removeAll '=' (replaceAll '/' '_' (replaceAll '+' '-' str))

def base64encode (email : String) : String :=
  String.ofList (escape (Base64.encode email.toUTF8.data.toList))

/-- `str.length`: a character outside the basic plane is two UTF-16 units. -/
def utf16Length : List Char → Nat
  | [] => 0
  | c :: str => (if c.toNat < 0x10000 then 1 else 2) + utf16Length str

def unescape (str : List Char) : List Char :=
  let padded := str ++ "===".toList.drop ((utf16Length str + 3) % 4)
  replaceAll '_' '/' (replaceAll '-' '+' padded)

/-- `none` for a text outside RFC 4648 and for bytes that are not UTF-8, about which only the
leniency of `Buffer` says anything. -/
def base64decode (str : String) : Option String :=
  (Base64.decode (unescape str.toList)).bind fun bytes => String.fromUTF8? ⟨bytes.toArray⟩

/-! ## The alphabet -/

/-- `A-Z`, `a-z`, `0-9`, `-` and `_`. -/
def UrlSafe (c : Char) : Prop :=
  ('A' ≤ c ∧ c ≤ 'Z') ∨ ('a' ≤ c ∧ c ≤ 'z') ∨ ('0' ≤ c ∧ c ≤ '9') ∨ c = '-' ∨ c = '_'

instance (c : Char) : Decidable (UrlSafe c) := by
  unfold UrlSafe
  infer_instance

/-- What `escape` writes for one digit. -/
def escapeDigit (c : Char) : Char :=
  if c = '+' then '-' else if c = '/' then '_' else c

/-- What `unescape` reads for one character. -/
def unescapeDigit (c : Char) : Char :=
  if c = '-' then '+' else if c = '_' then '/' else c

theorem escape_eq (str : List Char) : escape str = removeAll '=' (str.map escapeDigit) := by
  have hdigit : ∀ c : Char, (if (if c = '+' then '-' else c) = '/' then '_' else
      if c = '+' then '-' else c) = escapeDigit c := by
    intro c
    by_cases hplus : c = '+'
    · subst hplus
      decide
    · rw [escapeDigit, if_neg hplus, if_neg hplus]
  rw [escape, replaceAll, replaceAll, List.map_map]
  exact congrArg (removeAll '=') (List.map_congr_left fun c _ => hdigit c)

theorem unescape_eq (str : List Char) : unescape str =
    (str ++ "===".toList.drop ((utf16Length str + 3) % 4)).map unescapeDigit := by
  have hdigit : ∀ c : Char, (if (if c = '-' then '+' else c) = '_' then '/' else
      if c = '-' then '+' else c) = unescapeDigit c := by
    intro c
    by_cases hminus : c = '-'
    · subst hminus
      decide
    · rw [unescapeDigit, if_neg hminus, if_neg hminus]
  rw [unescape, replaceAll, replaceAll, List.map_map]
  exact List.map_congr_left fun c _ => hdigit c

/-- The 64 digits: none is lost, none collides with what another is written as. -/
theorem escapeDigit_digit {n : Nat} (h : n < 64) :
    UrlSafe (escapeDigit (digit n)) ∧ unescapeDigit (escapeDigit (digit n)) = digit n := by
  have hall : ∀ n : Fin 64, UrlSafe (escapeDigit (digit n)) ∧
      unescapeDigit (escapeDigit (digit n)) = digit n := by decide
  exact hall ⟨n, h⟩

theorem UrlSafe.ne_pad {c : Char} (h : UrlSafe c) : c ≠ '=' := by
  intro heq
  subst heq
  exact absurd h (by decide)

theorem UrlSafe.toNat_lt {c : Char} (h : UrlSafe c) : c.toNat < 0x10000 := by
  have hbound : ∀ z : Char, c ≤ z → z.toNat < 0x10000 → c.toNat < 0x10000 := by
    intro z hz hlt
    exact Nat.lt_of_le_of_lt (UInt32.le_iff_toNat_le.mp hz) hlt
  rcases h with ⟨_, h⟩ | ⟨_, h⟩ | ⟨_, h⟩ | rfl | rfl
  · exact hbound _ h (by decide)
  · exact hbound _ h (by decide)
  · exact hbound _ h (by decide)
  · decide
  · decide

/-! ## The round trip -/

theorem utf16Length_of_urlSafe {str : List Char} (h : ∀ c ∈ str, UrlSafe c) :
    utf16Length str = str.length := by
  induction str with
  | nil => rfl
  | cons c str ih =>
    obtain ⟨hc, hstr⟩ := List.forall_mem_cons.mp h
    rw [utf16Length, if_pos hc.toNat_lt, ih hstr, List.length_cons]
    omega

/-- On a text the encoder wrote, `escape` is its digits one by one. -/
theorem escape_encoded {body : List Char} (h : ∀ c ∈ body, ∃ n < 64, c = digit n) (pad : Nat) :
    escape (body ++ List.replicate pad '=') = body.map escapeDigit := by
  have hbody : removeAll '=' (body.map escapeDigit) = body.map escapeDigit := by
    apply List.filter_eq_self.mpr
    intro c hc
    obtain ⟨d, hd, rfl⟩ := List.mem_map.mp hc
    obtain ⟨n, hn, rfl⟩ := h d hd
    exact decide_eq_true (escapeDigit_digit hn).1.ne_pad
  have hpad : removeAll '=' ((List.replicate pad '=').map escapeDigit) = [] := by
    rw [List.map_replicate]
    apply List.filter_eq_nil_iff.mpr
    intro c hc
    rw [List.eq_of_mem_replicate hc]
    decide
  rw [removeAll] at hbody hpad
  rw [escape_eq, removeAll, List.map_append, List.filter_append, hbody, hpad, List.append_nil]

theorem urlSafe_of_digits {body : List Char} (h : ∀ c ∈ body, ∃ n < 64, c = digit n) :
    ∀ c ∈ body.map escapeDigit, UrlSafe c := by
  intro c hc
  obtain ⟨d, hd, rfl⟩ := List.mem_map.mp hc
  obtain ⟨n, hn, rfl⟩ := h d hd
  exact (escapeDigit_digit hn).1

/-- The slice of `'==='` is the padding the encoder wrote. -/
theorem slice_eq_padding {length pad : Nat} (hpad : pad ≤ 2) (hlength : (length + pad) % 4 = 0) :
    "===".toList.drop ((length + 3) % 4) = List.replicate pad '=' := by
  have hslice : (length + 3) % 4 = 3 - pad := by omega
  have hcases : pad = 0 ∨ pad = 1 ∨ pad = 2 := by omega
  rw [hslice]
  rcases hcases with rfl | rfl | rfl
  · decide
  · decide
  · decide

/-- `unescape` undoes `escape` on what the encoder writes. -/
theorem unescape_escape {body : List Char} {pad : Nat}
    (h : ∀ c ∈ body, ∃ n < 64, c = digit n) (hpad : pad ≤ 2)
    (hlength : (body.length + pad) % 4 = 0) :
    unescape (escape (body ++ List.replicate pad '=')) = body ++ List.replicate pad '=' := by
  have hback : (body.map escapeDigit).map unescapeDigit = body := by
    rw [List.map_map, List.map_congr_left (g := id), List.map_id]
    intro c hc
    obtain ⟨n, hn, rfl⟩ := h c hc
    exact (escapeDigit_digit hn).2
  have hsize : utf16Length (body.map escapeDigit) = body.length := by
    rw [utf16Length_of_urlSafe (urlSafe_of_digits h), List.length_map]
  rw [escape_encoded h, unescape_eq, hsize, slice_eq_padding hpad hlength, List.map_append, hback,
    List.map_replicate]
  rfl

theorem fromUTF8?_toUTF8 (s : String) : String.fromUTF8? s.toUTF8 = some s := by
  exact dif_pos s.isValidUTF8

/-- What `base64encode` writes is URL-safe, and `base64decode` reads the text back. -/
theorem base64_round_trip (s : String) :
    (∀ c ∈ (base64encode s).toList, UrlSafe c) ∧ base64decode (base64encode s) = some s := by
  obtain ⟨body, pad, hencode, hdigits, hpad, hlength⟩ :=
    encode_eq_append s.toUTF8.data.toList
  have hescaped : (base64encode s).toList = escape (body ++ List.replicate pad '=') := by
    rw [base64encode, hencode, String.toList_ofList]
  constructor
  · rw [hescaped, escape_encoded hdigits]
    exact urlSafe_of_digits hdigits
  · rw [base64decode, hescaped, unescape_escape hdigits hpad hlength, ← hencode, decode_encode]
    exact fromUTF8?_toUTF8 s

end OlsDapp.Helpers
