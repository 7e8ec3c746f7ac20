/-!
Texts of documents. JSON text can hold one half of a surrogate pair without the other, and that
is no character, so the texts of a document are made of symbols: characters and halves. They are
kept as texts of characters in which a half is the noncharacter U+10FFFF with a character of
private use behind it, and that noncharacter itself stands twice. Different texts are kept
differently, and every other character stands for itself.
-/

namespace Parley.Json.Half

/-- What stands in front of a half. -/
def mark : Char := Char.ofNat 0x10FFFF

/-- The least code unit that is half a pair. -/
def least : Nat := 0xD800

/-- The number of code units that are. -/
def count : Nat := 0x800

/-- The first of the characters that tell halves apart. -/
def firstTag : Nat := 0xE000

/-- What a text is made of. The half with number `n` is the code unit `least + n`. -/
inductive Symbol
  | char (c : Char)
  | half (n : Fin count)
  deriving DecidableEq

def Symbol.encode : Symbol → List Char
  | char c => if c = mark then [mark, mark] else [c]
  | half n => [mark, Char.ofNat (firstTag + n)]

/-- The symbol of a code unit that stands alone. -/
def Symbol.ofUnit (unit : Nat) : Symbol :=
  if h : unit - least < count ∧ least ≤ unit then half ⟨unit - least, h.1⟩
  else char (Char.ofNat unit)

/-- The symbol that a character stands for behind the mark. -/
def Symbol.ofTag (d : Char) : Symbol :=
  if h : d.toNat - firstTag < count ∧ firstTag ≤ d.toNat then half ⟨d.toNat - firstTag, h.1⟩
  else char d

/-- How a text is kept. -/
def encode (ss : List Symbol) : String := String.ofList (ss.flatMap Symbol.encode)

/-- The symbols of what is kept; `done` holds those read so far, backwards. -/
def decodeFrom (done : List Symbol) : List Char → List Symbol
  | [] => done.reverse
  | [c] => (.char c :: done).reverse
  | c :: d :: rest =>
    if c = mark then decodeFrom (.ofTag d :: done) rest
    else decodeFrom (.char c :: done) (d :: rest)

def decode (s : String) : List Symbol := decodeFrom [] s.toList

theorem decodeFrom_encode (done : List Symbol) (s : Symbol) (cs : List Char) :
    decodeFrom done (s.encode ++ cs) = decodeFrom (s :: done) cs := by
  cases s with
  | half n =>
    have hn : (Char.ofNat (firstTag + n)).toNat = firstTag + n := by
      have hlt : n.val < 0x800 := n.isLt
      have hv : (firstTag + n).isValidChar := .inr (by unfold firstTag; omega)
      rw [Char.ofNat, dif_pos hv]
      rfl
    have htag : Symbol.ofTag (Char.ofNat (firstTag + n)) = .half n := by
      simp [Symbol.ofTag, hn]
    simp only [Symbol.encode, List.cons_append, List.nil_append, decodeFrom, if_pos, htag]
  | char c =>
    by_cases hc : c = mark
    · have hmark : Symbol.ofTag mark = .char mark := by decide
      subst hc
      simp only [Symbol.encode, if_pos, List.cons_append, List.nil_append, decodeFrom, hmark]
    · cases cs <;> simp [Symbol.encode, decodeFrom, hc]

/-- A text is read back as it was. -/
theorem decode_encode (ss : List Symbol) : decode (encode ss) = ss := by
  have hfrom : ∀ done, decodeFrom done (ss.flatMap Symbol.encode) = done.reverse ++ ss := by
    induction ss with
    | nil => simp [decodeFrom]
    | cons s ss ih =>
      intro done
      rw [List.flatMap_cons, decodeFrom_encode, ih, List.reverse_cons, List.append_assoc]
      rfl
  rw [decode, encode, String.toList_ofList, hfrom, List.reverse_nil, List.nil_append]

/-- Different texts are kept differently. -/
theorem encode_inj {ss ts : List Symbol} (h : encode ss = encode ts) : ss = ts := by
  rw [← decode_encode ss, h, decode_encode]

/-- A text of characters, as it is kept. -/
def ofPlain (s : String) : String := encode (s.toList.map .char)

/-- The character of a symbol in a stream of characters, which has no halves: each is replaced by
U+FFFD. -/
def Symbol.printed : Symbol → Char
  | char c => c
  | half _ => Char.ofNat 0xFFFD

/-- A text as it goes to a stream of characters. -/
def replaced (s : String) : String := String.ofList ((decode s).map Symbol.printed)

/-- A text of characters goes there as it is. -/
theorem replaced_ofPlain (s : String) : replaced (ofPlain s) = s := by
  have hprinted : Symbol.printed ∘ Symbol.char = id := rfl
  rw [replaced, ofPlain, decode_encode, List.map_map, hprinted, List.map_id, String.ofList_toList]

end Parley.Json.Half
