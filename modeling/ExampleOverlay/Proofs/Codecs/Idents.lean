import ExampleOverlay.Ident
import ExampleOverlay.Proofs.Codecs.Radix

/-!
# Ids as bytes and as text

Sixteen bytes of base 256 and twenty-six symbols of base 32 both hold every id, so an id comes back from either
form, and both forms are ordered as words like the ids are ordered as numbers: the most significant digit comes
first, and the symbols ascend with their values. Read is every text of twenty-six bytes that are symbols in either
case (`Ident.IsWritten`). The first symbol counts for 2 ^ 125, so of its five bits the two that are dropped are
those above 2 ^ 128: it is written back modulo 8, and all other symbols in upper case. Main statement:
`Ident.forms_read_back`.
-/

namespace ExampleOverlay

/-! ## Symbols -/

namespace Base32

/-- The ten digits, and the letters of both cases but for `I`, `L`, `O` and `U`. -/
def IsSymbol (c : Char) : Prop := c.isDigit ∨ c.isAlpha ∧ c.toUpper ∉ ['I', 'L', 'O', 'U']

instance (c : Char) : Decidable (IsSymbol c) := inferInstanceAs (Decidable (_ ∨ _))

theorem digit?_symbol : ∀ d < 32, digit? (symbol d) = some d := by decide +kernel

theorem symbol_lt_symbol_iff : ∀ d < 32, ∀ e < 32, symbol d < symbol e ↔ d < e := by decide +kernel

theorem isSymbol_symbol : ∀ d < 32, IsSymbol (symbol d) := by decide +kernel

theorem digit?_eq_some {c : Char} {d : Nat} (h : digit? c = some d) : d < 32 ∧ symbol d = c.toUpper := by
  obtain ⟨hd, hc, -⟩ := List.findIdx?_eq_some_iff_getElem.1 h
  have hlen : symbols.length = 32 := rfl
  exact ⟨hlen ▸ hd, by simpa [symbol, List.getD_eq_getElem?_getD, hd] using hc⟩

theorem lt_of_isSymbol {c : Char} (h : IsSymbol c) : c.toNat < 128 := by
  have hle : ∀ d : Char, d.toNat < 128 → c.val ≤ d.val → c.toNat < 128 := fun d hd h => Nat.lt_of_le_of_lt h hd
  rcases h with hdigit | ⟨hletter, -⟩
  · exact hle '9' (by decide) (of_decide_eq_true (Bool.and_eq_true_iff.1 hdigit).2)
  · rcases Bool.or_eq_true_iff.1 hletter with hupper | hlower
    · exact hle 'Z' (by decide) (of_decide_eq_true hupper).2
    · exact hle 'z' (by decide) (of_decide_eq_true (Bool.and_eq_true_iff.1 hlower).2)

theorem toUpper_of_le {c : Char} (h : 128 ≤ c.toNat) : c.toUpper = c := by
  unfold Char.toUpper
  rw [dif_neg]
  rintro ⟨-, h'⟩
  have : c.toNat ≤ 122 := h'
  omega

/-- The symbols are what stands for a digit. -/
theorem isSome_digit?_iff {c : Char} : (digit? c).isSome ↔ IsSymbol c := by
  have hascii : ∀ n < 128, (digit? (Char.ofNat n)).isSome ↔ IsSymbol (Char.ofNat n) := by decide +kernel
  by_cases h : c.toNat < 128
  · have hc := hascii c.toNat h
    rwa [Char.ofNat_toNat] at hc
  · refine iff_of_false (fun hd => ?_) fun hc => h (lt_of_isSymbol hc)
    obtain ⟨d, hd⟩ := Option.isSome_iff_exists.1 hd
    obtain ⟨hlt, hsymbol⟩ := digit?_eq_some hd
    rw [toUpper_of_le (Nat.not_lt.1 h)] at hsymbol
    exact h (hsymbol ▸ lt_of_isSymbol (isSymbol_symbol d hlt))

/-! ## Symbols as bytes -/

theorem utf8EncodeChar_of_lt {c : Char} (h : c.toNat < 128) : String.utf8EncodeChar c = [UInt8.ofNat c.toNat] := by
  have h' : c.val.toNat ≤ 127 := Nat.le_of_lt_succ h
  simp only [String.utf8EncodeChar, h', if_true]
  rfl

/-- The bytes of a character that takes more than one have their highest bit set. -/
theorem le_of_mem_utf8EncodeChar {c : Char} (h : 128 ≤ c.toNat) :
    ∀ byte ∈ String.utf8EncodeChar c, 128 ≤ byte.toNat := by
  have h' : ¬ c.val.toNat ≤ 127 := Nat.not_le.2 h
  simp only [String.utf8EncodeChar, h', if_false]
  repeat' split
  all_goals
    simp only [List.forall_mem_cons, UInt8.toNat_ofNat', List.not_mem_nil, false_imp_iff, implies_true, and_true,
      Nat.reducePow]
    omega

theorem isSymbol_bytes_iff {c : Char} :
    (∀ byte ∈ String.utf8EncodeChar c, IsSymbol (Char.ofNat byte.toNat)) ↔ IsSymbol c := by
  by_cases h : c.toNat < 128
  · have hbyte : (UInt8.ofNat c.toNat).toNat = c.toNat := by
      rw [UInt8.toNat_ofNat']
      omega
    simp [utf8EncodeChar_of_lt h, hbyte]
  · refine iff_of_false (fun hbytes => ?_) fun hc => h (lt_of_isSymbol hc)
    -- its first byte would be a symbol, and none is that high
    have hlow : ∀ n < 256, 128 ≤ n → ¬ IsSymbol (Char.ofNat n) := by decide +kernel
    obtain ⟨byte, hmem⟩ := List.exists_mem_of_ne_nil _ (String.utf8EncodeChar_ne_nil (c := c))
    have hhigh := le_of_mem_utf8EncodeChar (Nat.not_lt.1 h) byte hmem
    exact hlow byte.toNat byte.toNat_lt hhigh (hbytes byte hmem)

theorem utf8_of_symbols {cs : List Char} (h : ∀ c ∈ cs, IsSymbol c) :
    cs.flatMap String.utf8EncodeChar = cs.map fun c => UInt8.ofNat c.toNat := by
  induction cs with
  | nil => rfl
  | cons c cs ih =>
    rw [List.flatMap_cons, utf8EncodeChar_of_lt (lt_of_isSymbol (h c (by simp))), ih fun e he => h e (by simp [he])]
    rfl

end Base32

namespace Ident

variable {role : Role}

/-- A text of twenty-six bytes, each of them a symbol. -/
def IsWritten (text : String) : Prop :=
  text.toUTF8.size = 26 ∧ ∀ byte ∈ text.toUTF8.data, Base32.IsSymbol (Char.ofNat byte.toNat)

theorem data_toUTF8 (text : String) : text.toUTF8.data.toList = text.toList.flatMap String.utf8EncodeChar := by
  rw [String.toUTF8_eq_toByteArray, ← String.utf8Encode_toList, List.utf8Encode, List.data_toByteArray]

theorem isWritten_iff {text : String} :
    IsWritten text ↔ text.utf8ByteSize = 26 ∧ ∀ c ∈ text.toList, Base32.IsSymbol c := by
  refine and_congr Iff.rfl ?_
  have hbytes : (∀ byte ∈ text.toUTF8.data, Base32.IsSymbol (Char.ofNat byte.toNat)) ↔
      ∀ c ∈ text.toList, ∀ byte ∈ String.utf8EncodeChar c, Base32.IsSymbol (Char.ofNat byte.toNat) := by
    simp only [← Array.mem_toList_iff, data_toUTF8, List.mem_flatMap]
    aesop
  simp only [hbytes, Base32.isSymbol_bytes_iff]

/-- Symbols take a byte each. -/
theorem utf8ByteSize_of_symbols {text : String} (h : ∀ c ∈ text.toList, Base32.IsSymbol c) :
    text.utf8ByteSize = text.toList.length := by
  have hdata := congrArg List.length (data_toUTF8 text)
  rw [Base32.utf8_of_symbols h, List.length_map] at hdata
  exact hdata

/-! ## Reading and writing -/

theorem mapM_digit?_eq_some_iff {cs : List Char} {ds : List Nat} :
    cs.mapM Base32.digit? = some ds ↔ cs.map Base32.digit? = ds.map some := by
  induction cs generalizing ds with
  | nil => cases ds <;> simp
  | cons c cs ih =>
    rw [List.mapM_cons]
    cases hc : Base32.digit? c <;> cases hcs : cs.mapM Base32.digit? <;> cases ds <;> simp_all

/-- What stands for digits are symbols, whose upper-case forms are those of the digits. -/
theorem symbols_of_map_digit? {cs : List Char} {ds : List Nat} (h : cs.map Base32.digit? = ds.map some) :
    (∀ c ∈ cs, Base32.IsSymbol c) ∧ (∀ d ∈ ds, d < 32) ∧ ds.map Base32.symbol = cs.map Char.toUpper := by
  induction cs generalizing ds with
  | nil => cases ds <;> simp_all
  | cons c cs ih =>
    cases ds with
    | nil => simp at h
    | cons d ds =>
      simp only [List.map_cons, List.cons.injEq] at h
      obtain ⟨hsymbols, hlt, hupper⟩ := ih h.2
      obtain ⟨hd, hc⟩ := Base32.digit?_eq_some h.1
      have hsymbol : Base32.IsSymbol c := Base32.isSome_digit?_iff.1 (by simp [h.1])
      exact ⟨List.forall_mem_cons.2 ⟨hsymbol, hsymbols⟩, List.forall_mem_cons.2 ⟨hd, hlt⟩, by simp [hc, hupper]⟩

theorem exists_map_digit?_iff {cs : List Char} :
    (∃ ds : List Nat, cs.map Base32.digit? = ds.map some) ↔ ∀ c ∈ cs, Base32.IsSymbol c := by
  refine ⟨fun ⟨ds, hds⟩ => (symbols_of_map_digit? hds).1, fun h => ?_⟩
  induction cs with
  | nil => exact ⟨[], rfl⟩
  | cons c cs ih =>
    obtain ⟨ds, hds⟩ := ih fun e he => h e (by simp [he])
    obtain ⟨d, hd⟩ := Option.isSome_iff_exists.1 (Base32.isSome_digit?_iff.2 (h c (by simp)))
    exact ⟨d :: ds, by simp [hd, hds]⟩

/-- **A text is read** if it has twenty-six bytes and each of its symbols stands for a digit. -/
theorem parse_eq_ok_iff {text : String} {id : Ident role} : parse text = .ok id ↔
    text.utf8ByteSize = 26 ∧ ∃ ds : List Nat, text.toList.map Base32.digit? = ds.map some ∧
      id = ⟨BitVec.ofNat 128 (Radix.value 32 ds)⟩ := by
  unfold parse
  by_cases hsize : text.utf8ByteSize = 26
  · simp only [hsize, ne_eq, not_true, if_false, true_and, ← mapM_digit?_eq_some_iff]
    cases text.toList.mapM Base32.digit? <;> simp [eq_comm]
  · simp [hsize]

theorem toList_toText (id : Ident role) :
    id.toText.toList = (Radix.digits 32 26 id.value.toNat).map Base32.symbol := String.toList_ofList

theorem lt_of_mem_digits {id : Ident role} {d : Nat} (h : d ∈ Radix.digits 32 26 id.value.toNat) : d < 32 :=
  Radix.lt_of_mem_digits (by decide) h

theorem isSymbol_of_mem_toText {id : Ident role} : ∀ c ∈ id.toText.toList, Base32.IsSymbol c := by
  intro c hc
  rw [toList_toText, List.mem_map] at hc
  obtain ⟨d, hd, rfl⟩ := hc
  exact Base32.isSymbol_symbol d (lt_of_mem_digits hd)

theorem ofBytes_toBytes (id : Ident role) : ofBytes id.toBytes = .ok id := by
  have hlt : id.value.toNat < 256 ^ 16 := id.value.isLt
  have hlength : id.toBytes.length = 16 := Radix.length_digits ..
  rw [ofBytes, if_pos hlength, toBytes, Radix.value_digits_of_lt hlt]
  simp

theorem parse_toText (id : Ident role) : parse id.toText = .ok id := by
  have hlt : id.value.toNat < 32 ^ 26 := Nat.lt_of_lt_of_le id.value.isLt (by decide)
  refine parse_eq_ok_iff.2 ⟨?_, Radix.digits 32 26 id.value.toNat, ?_, ?_⟩
  · rw [utf8ByteSize_of_symbols isSymbol_of_mem_toText, toList_toText, List.length_map, Radix.length_digits]
  · rw [toList_toText, List.map_map]
    exact List.map_congr_left fun d hd => Base32.digit?_symbol d (lt_of_mem_digits hd)
  · rw [Radix.value_digits_of_lt hlt]
    simp

/-- **Symbols are written back** in upper case, the first one without its bits above 2 ^ 128. -/
theorem digits_value_mod {d : Nat} {ds : List Nat} (hlen : ds.length = 25) (hds : ∀ e ∈ ds, e < 32) :
    Radix.digits 32 26 (Radix.value 32 (d :: ds) % 2 ^ 128) = d % 8 :: ds := by
  have hrest := Radix.value_lt hds
  have hmod : Radix.value 32 (d :: ds) % 2 ^ 128 = Radix.value 32 (d % 8 :: ds) := by
    rw [hlen] at hrest
    rw [Radix.value_cons, Radix.value_cons, hlen]
    norm_num at hrest ⊢
    omega
  have hall : ∀ e ∈ d % 8 :: ds, e < 32 := by
    simp only [List.forall_mem_cons]
    exact ⟨by omega, hds⟩
  have hwrite := Radix.digits_value hall
  rwa [List.length_cons, hlen, ← hmod] at hwrite

theorem toText_of_parse {text : String} {id : Ident role} (h : parse text = .ok id) :
    ∃ c cs d, text.toList = c :: cs ∧ Base32.digit? c = some d ∧ Base32.symbol d = c.toUpper ∧
      id.toText = String.ofList (Base32.symbol (d % 8) :: cs.map Char.toUpper) := by
  obtain ⟨hsize, ds, hds, rfl⟩ := parse_eq_ok_iff.1 h
  obtain ⟨hsymbols, -, -⟩ := symbols_of_map_digit? hds
  rw [utf8ByteSize_of_symbols hsymbols] at hsize
  cases hcs : text.toList with
  | nil => simp [hcs] at hsize
  | cons c cs =>
    rw [hcs] at hds hsize
    cases ds with
    | nil => simp at hds
    | cons d ds =>
      simp only [List.map_cons, List.cons.injEq] at hds
      obtain ⟨-, hlt, hupper⟩ := symbols_of_map_digit? hds.2
      have hlen : ds.length = 25 := by
        have h := congrArg List.length hds.2
        simp only [List.length_map, List.length_cons] at h hsize
        omega
      refine ⟨c, cs, d, rfl, hds.1, (Base32.digit?_eq_some hds.1).2, ?_⟩
      rw [toText, BitVec.toNat_ofNat, digits_value_mod hlen hlt, List.map_cons, hupper]

/-! ## Order -/

theorem map_symbol_lt_iff {ds es : List Nat} (hd : ∀ d ∈ ds, d < 32) (he : ∀ e ∈ es, e < 32) :
    ds.map Base32.symbol < es.map Base32.symbol ↔ ds < es := by
  induction ds generalizing es with
  | nil => cases es <;> simp
  | cons d ds ih =>
    cases es with
    | nil => simp
    | cons e es =>
      have hrest := ih (fun x hx => hd x (List.mem_cons_of_mem d hx)) fun x hx => he x (List.mem_cons_of_mem e hx)
      have hlt := Base32.symbol_lt_symbol_iff d (hd d (by simp)) e (he e (by simp))
      have heq : Base32.symbol d = Base32.symbol e ↔ d = e := by
        refine ⟨fun h => ?_, fun h => by rw [h]⟩
        have hdigit := congrArg Base32.digit? h
        rw [Base32.digit?_symbol d (hd d (by simp)), Base32.digit?_symbol e (he e (by simp))] at hdigit
        exact Option.some.inj hdigit
      rw [List.map_cons, List.map_cons, List.cons_lt_cons_iff, List.cons_lt_cons_iff, hlt, heq, hrest]

theorem compare_eq_lt_iff {a b : Ident role} : compare a b = .lt ↔ a.value.toNat < b.value.toNat := by
  rw [compare_def]
  exact Nat.compare_eq_lt

theorem toBytes_lt_iff {a b : Ident role} : a.toBytes < b.toBytes ↔ compare a b = .lt := by
  rw [compare_eq_lt_iff]
  exact Radix.digits_lt_digits_iff (by decide) a.value.isLt b.value.isLt

theorem toText_lt_iff {a b : Ident role} : a.toText < b.toText ↔ compare a b = .lt := by
  have hfits : ∀ id : Ident role, id.value.toNat < 32 ^ 26 := fun id =>
    Nat.lt_of_lt_of_le id.value.isLt (by decide)
  rw [compare_eq_lt_iff, String.lt_iff, toList_toText, toList_toText,
    map_symbol_lt_iff (fun d => lt_of_mem_digits) fun e => lt_of_mem_digits]
  exact Radix.digits_lt_digits_iff (by decide) (hfits a) (hfits b)

/-! ## Both forms -/

/-- **The forms of an id read back.** Every id is sixteen bytes and twenty-six symbols, and both give it back; both
are ordered like the ids. A text is read as an id if and only if it is written in twenty-six symbols of either case,
and that id is written as the text in upper case, with the first symbol's digit modulo 8. -/
theorem forms_read_back :
    (∀ id : Ident role, (id.toBytes.length = 16 ∧ ∀ byte ∈ id.toBytes, byte < 256) ∧ IsWritten id.toText ∧
      ofBytes id.toBytes = .ok id ∧ parse id.toText = .ok id) ∧
    (∀ a b : Ident role, (compare a b = .lt ↔ a.toBytes < b.toBytes) ∧ (compare a b = .lt ↔ a.toText < b.toText)) ∧
    ∀ text : String, ((∃ id : Ident role, parse text = .ok id) ↔ IsWritten text) ∧
      ∀ id : Ident role, parse text = .ok id → ∃ c cs d, text.toList = c :: cs ∧ Base32.digit? c = some d ∧
        Base32.symbol d = c.toUpper ∧ id.toText = String.ofList (Base32.symbol (d % 8) :: cs.map Char.toUpper) := by
  have hread : ∀ text : String, (∃ id : Ident role, parse text = .ok id) ↔ IsWritten text := by
    intro text
    rw [isWritten_iff, ← exists_map_digit?_iff]
    constructor
    · rintro ⟨id, hid⟩
      obtain ⟨hsize, ds, hds, -⟩ := parse_eq_ok_iff.1 hid
      exact ⟨hsize, ds, hds⟩
    · rintro ⟨hsize, ds, hds⟩
      exact ⟨_, parse_eq_ok_iff.2 ⟨hsize, ds, hds, rfl⟩⟩
  refine ⟨fun id => ⟨⟨Radix.length_digits .., fun byte => Radix.lt_of_mem_digits (by decide)⟩,
    (hread _).1 ⟨id, parse_toText id⟩, ofBytes_toBytes id, parse_toText id⟩,
    fun a b => ⟨toBytes_lt_iff.symm, toText_lt_iff.symm⟩, fun text => ⟨hread text, fun id => toText_of_parse⟩⟩

/-- A text in lower case with all its bits set: the two that are too many are dropped. -/
theorem forms_read_back_overflowing : ∃ id : ItemId, parse "zzzzzzzzzzzzzzzzzzzzzzzzzz" = .ok id ∧
    id.toText = "7ZZZZZZZZZZZZZZZZZZZZZZZZZ" := by
  obtain ⟨-, -, hreads⟩ := @forms_read_back .item
  obtain ⟨hread, hback⟩ := hreads "zzzzzzzzzzzzzzzzzzzzzzzzzz"
  have hsymbols : "zzzzzzzzzzzzzzzzzzzzzzzzzz".toList = 'z' :: List.replicate 25 'z' := by decide +kernel
  have hwritten : IsWritten "zzzzzzzzzzzzzzzzzzzzzzzzzz" := by
    refine isWritten_iff.2 ⟨by decide +kernel, fun c hc => ?_⟩
    rw [hsymbols, ← List.replicate_succ] at hc
    rw [List.eq_of_mem_replicate hc]
    decide
  obtain ⟨id, hid⟩ := hread.2 hwritten
  obtain ⟨c, cs, d, hcs, hd, -, htext⟩ := hback id hid
  obtain ⟨rfl, rfl⟩ := List.cons.inj (hcs.symm.trans hsymbols)
  obtain rfl : d = 31 := Option.some.inj (hd.symm.trans (by decide +kernel))
  exact ⟨id, hid, htext.trans (by decide +kernel)⟩

end Ident

end ExampleOverlay
