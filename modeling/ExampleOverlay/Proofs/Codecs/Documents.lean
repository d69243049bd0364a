import ExampleOverlay.Toml.Document
import ExampleOverlay.Proofs.Codecs.Quoted

/-!
# Documents read line by line

A document of plain lines (`Lines`) assigns to bare keys and opens tables by bare names; a value may be anything
that is read up to the end of its line (`Node.ReadsFrom`), such as a number in decimal digits and a text in quotes,
which may itself go over several lines. Main statement: `parse_of_lines`.
-/

namespace ExampleOverlay.Toml

variable {n : Nat} {ds cs rest v : List Char} {node : Node}

/-! ## Numbers -/

theorem isGrouped_of_isDigit (hne : ds ≠ []) (h : ∀ c ∈ ds, c.isDigit) : isGrouped Char.isDigit ds := by
  induction ds with
  | nil => contradiction
  | cons c ds ih =>
    have hc := h c (by simp)
    cases ds with
    | nil => simpa [isGrouped] using hc
    | cons d ds =>
      have hd : d ≠ '_' := by
        rintro rfl
        simpa using h '_' (by simp)
      have hrest := ih (by simp) fun e he => h e (List.mem_cons_of_mem c he)
      simp [isGrouped, hd, hc, hrest]

theorem groupedValue_of_isDigit (h : ∀ c ∈ ds, c.isDigit) : groupedValue 10 ds = Nat.ofDigitChars 10 ds 0 := by
  have hfilter : ds.filter (· != '_') = ds := by
    refine List.filter_eq_self.2 fun c hc => ?_
    have := h c hc
    rw [bne_iff_ne]
    rintro rfl
    simp at this
  have hdigits : ds.map digitValue = ds.map fun c => c.toNat - '0'.toNat :=
    List.map_congr_left fun c hc => if_pos (h c hc)
  rw [groupedValue, hfilter, hdigits, Radix.value, List.foldl_map, Nat.ofDigitChars_eq_foldl]
  simp only [Nat.mul_comm]

theorem isDigit_of_mem_toDigits {c : Char} (h : c ∈ Nat.toDigits 10 n) : c.isDigit :=
  Nat.isDigit_of_mem_toDigits (by decide) (by decide) h

theorem head?_toDigits_ne_zero (h : n ≠ 0) : (Nat.toDigits 10 n).head? ≠ some '0' := by
  induction n using Nat.strongRecOn with
  | ind n ih =>
    by_cases hlt : n < 10
    · simpa [Nat.toDigits_of_lt_base hlt] using h
    · have hdiv := ih (n / 10) (by omega) (by omega)
      obtain ⟨c, cs, hcons⟩ := List.exists_cons_of_ne_nil (Nat.toDigits_ne_nil (n := n / 10) (b := 10))
      rw [Nat.toDigits_of_base_le (by decide) (by omega), hcons]
      simpa [hcons] using hdiv

theorem isDecimal_toDigits (n : Nat) : isDecimal (Nat.toDigits 10 n) := by
  have hgrouped := isGrouped_of_isDigit (Nat.toDigits_ne_nil (n := n)) fun c => isDigit_of_mem_toDigits
  unfold isDecimal
  by_cases hn : n = 0
  · subst n
    rfl
  · simp [hgrouped, head?_toDigits_ne_zero hn]

theorem unsign_of_isDigit (h : ∀ c ∈ ds, c.isDigit) : unsign ds = (false, ds) := by
  unfold unsign
  split
  · simpa using h '-' (by simp)
  · simpa using h '+' (by simp)
  · rfl

/-- Digits have no sign and no mark of another base. -/
theorem integer?_of_isDigit (h : ∀ c ∈ ds, c.isDigit) :
    integer? ds = if isDecimal ds then inRange (groupedValue 10 ds) else none := by
  unfold integer?
  split
  · simpa using h 'x' (by simp)
  · simpa using h 'o' (by simp)
  · simpa using h 'b' (by simp)
  · simp [unsign_of_isDigit h]

/-- **A number reads back** if it has no more than 63 bits. -/
theorem bareValue?_toDigits (h : (n : Int) ≤ Int64.maxValue.toInt) :
    bareValue? (Nat.toDigits 10 n) = some (.integer n) := by
  have hdigits : ∀ c ∈ Nat.toDigits 10 n, c.isDigit := fun c => isDigit_of_mem_toDigits
  have hletter : ∀ c : Char, c.isDigit = false → c ∉ Nat.toDigits 10 n := by
    intro c hc hmem
    simp [hdigits c hmem] at hc
  have htrue : Nat.toDigits 10 n ≠ "true".toList := fun heq => hletter 't' (by decide) (heq ▸ by decide)
  have hfalse : Nat.toDigits 10 n ≠ "false".toList := fun heq => hletter 'f' (by decide) (heq ▸ by decide)
  have hmin : Int64.minValue.toInt ≤ 0 := by decide
  have hrange : inRange (n : Int) = some (n : Int) := if_pos ⟨by omega, h⟩
  rw [bareValue?, if_neg htrue, if_neg hfalse, integer?_of_isDigit hdigits, if_pos (isDecimal_toDigits n),
    groupedValue_of_isDigit hdigits, Nat.ofDigitChars_ten_toDigits, hrange]

/-! ## Values -/

/-- A value is read from what is written behind a blank, up to the end of its line. -/
def Node.ReadsFrom (node : Node) (v : List Char) : Prop :=
  ∀ fuel rest, 0 < fuel →
    value fuel depthLimit (skipBlanks (' ' :: (v ++ '\n' :: rest))) = some (node, '\n' :: rest)

theorem ne_of_pos {p : Char → Bool} {c d : Char} (hc : p c) (hd : p d = false) : c ≠ d := by
  rintro rfl
  simp [hc] at hd

theorem skipBlanks_cons {c : Char} (hspace : c ≠ ' ') (htab : c ≠ '\t') : skipBlanks (c :: cs) = c :: cs := by
  simp [skipBlanks, Text.isBlank, hspace, htab]

theorem skipBlanks_space (cs : List Char) : skipBlanks (' ' :: cs) = skipBlanks cs := by
  simp [skipBlanks, Text.isBlank]

theorem bareValue_of_isBareValueChar (h : ∀ c ∈ v, isBareValueChar c) (rest : List Char) :
    bareValue (v ++ '\n' :: rest) = (bareValue? v).map (·, '\n' :: rest) := by
  have hstop : isBareValueChar '\n' = false := by decide
  simp [bareValue, List.takeWhile_append_of_pos h, List.dropWhile_append_of_pos h, hstop]

theorem value_of_isBareValueChar {c : Char} (hc : isBareValueChar c) (fuel depth : Nat) (cs : List Char) :
    value (fuel + 1) depth (c :: cs) = bareValue (c :: cs) := by
  unfold value
  split
  case h_7 => rfl
  all_goals
    rename_i heq
    cases heq
    contradiction

/-- A word is read as the value that it stands for. -/
theorem readsFrom_of_bareValue? (hne : v ≠ []) (hchars : ∀ c ∈ v, isBareValueChar c) (hv : bareValue? v = some node) :
    node.ReadsFrom v := by
  intro fuel rest hfuel
  obtain ⟨fuel, rfl⟩ := Nat.exists_eq_add_of_lt hfuel
  have hbare := bareValue_of_isBareValueChar hchars rest
  rw [hv] at hbare
  obtain ⟨c, cs, rfl⟩ := List.exists_cons_of_ne_nil hne
  have hc := hchars c (by simp)
  rw [List.cons_append, skipBlanks_space, skipBlanks_cons (ne_of_pos hc (by decide)) (ne_of_pos hc (by decide)),
    value_of_isBareValueChar hc]
  exact hbare

theorem readsFrom_toDigits (h : (n : Int) ≤ Int64.maxValue.toInt) :
    (Node.integer n).ReadsFrom (Nat.toDigits 10 n) := by
  refine readsFrom_of_bareValue? Nat.toDigits_ne_nil (fun c hc => ?_) (bareValue?_toDigits h)
  simp [isBareValueChar, Char.isAlphanum, isDigit_of_mem_toDigits hc]

theorem value_quote (fuel depth : Nat) (style : Text.Style) (cs : List Char) :
    value (fuel + 1) depth (style.quote :: cs) =
      (Text.scan (style.quote :: cs)).map fun (s, rest) => (.text (String.ofList s), rest) := by
  obtain ⟨escapes, block⟩ := style
  cases escapes <;> simp [value, Text.Style.quote]

/-- A text is read in whatever style it is written. -/
theorem readsFrom_write (s : List Char) : (Node.text (String.ofList s)).ReadsFrom (Text.write s) := by
  intro fuel rest hfuel
  obtain ⟨fuel, rfl⟩ := Nat.exists_eq_add_of_lt hfuel
  have hscan := Text.scan_write s ('\n' :: rest) fun style => by simpa using (Text.Style.quote_ne (by decide)).symm
  obtain ⟨cs, hcs⟩ := Text.exists_write_eq_cons s
  rw [hcs, List.cons_append] at hscan ⊢
  rw [skipBlanks_space, skipBlanks_cons (Text.Style.quote_ne (by decide)) (Text.Style.quote_ne (by decide)),
    value_quote, hscan]
  rfl

/-! ## Lines -/

/-- A name that needs no quotes. -/
def IsBareKey (name : String) : Prop := name.toList ≠ [] ∧ name.toList.all isBareKeyChar

instance (name : String) : Decidable (IsBareKey name) := inferInstanceAs (Decidable (_ ∧ _))

/-- The lines of a document, each with what it states. -/
inductive Lines : List Char → List Statement → Prop
  | nil : Lines [] []
  | blank {cs ss} : Lines cs ss → Lines ('\n' :: cs) ss
  | assign {name v node cs ss} : IsBareKey name → node.ReadsFrom v → Lines cs ss →
      Lines (name.toList ++ ' ' :: '=' :: ' ' :: (v ++ '\n' :: cs)) (.assign [] name node :: ss)
  | table {name cs ss} : IsBareKey name → Lines cs ss →
      Lines ('[' :: (name.toList ++ ']' :: '\n' :: cs)) (.table [] name :: ss)

namespace IsBareKey

variable {name : String}

theorem forall_mem (hname : IsBareKey name) : ∀ c ∈ name.toList, isBareKeyChar c := List.all_eq_true.1 hname.2

theorem append_ne_cons (hname : IsBareKey name) {c : Char} (hc : isBareKeyChar c = false) (cs more : List Char) :
    name.toList ++ cs ≠ c :: more := by
  obtain ⟨d, ds, hds⟩ := List.exists_cons_of_ne_nil hname.1
  rw [hds]
  intro h
  exact ne_of_pos (hname.forall_mem d (by simp [hds])) hc (List.cons.inj h).1

theorem skipBlanks_append (hname : IsBareKey name) (cs : List Char) :
    skipBlanks (name.toList ++ cs) = name.toList ++ cs := by
  obtain ⟨c, ds, hds⟩ := List.exists_cons_of_ne_nil hname.1
  have hc := hname.forall_mem c (by simp [hds])
  rw [hds]
  exact skipBlanks_cons (ne_of_pos hc (by decide)) (ne_of_pos hc (by decide))

theorem keyPart_append (hname : IsBareKey name) {c : Char} (hc : isBareKeyChar c = false) :
    keyPart (name.toList ++ c :: rest) = some (name, c :: rest) := by
  have htake : (name.toList ++ c :: rest).takeWhile isBareKeyChar = name.toList := by
    simp [List.takeWhile_append_of_pos hname.forall_mem, hc]
  have hdrop : (name.toList ++ c :: rest).dropWhile isBareKeyChar = c :: rest := by
    simp [List.dropWhile_append_of_pos hname.forall_mem, hc]
  unfold keyPart
  split
  · exact absurd ‹_› (hname.append_ne_cons (by decide) _ _)
  · exact absurd ‹_› (hname.append_ne_cons (by decide) _ _)
  · rw [htake, hdrop]
    split
    · exact absurd ‹_› hname.1
    · rw [String.ofList_toList]

/-- A bare key is read up to its end and the blanks behind it. -/
theorem key_append (hname : IsBareKey name) (c : Char) (rest : List Char) (hc : isBareKeyChar c = false)
    (hdot : ∀ more, skipBlanks (c :: rest) ≠ '.' :: more) :
    key (name.toList ++ c :: rest) = some (([], name), skipBlanks (c :: rest)) := by
  have hparts : ∀ fuel, keyParts (fuel + 1) (name.toList ++ c :: rest) = some ([name], skipBlanks (c :: rest)) := by
    intro fuel
    rw [keyParts, hname.skipBlanks_append, hname.keyPart_append hc]
    simp
  rw [key, hparts]
  rfl

theorem lineEnd?_append (hname : IsBareKey name) (cs : List Char) : lineEnd? (name.toList ++ cs) = none := by
  have hne : name.toList ++ cs ≠ [] := by simp [hname.1]
  unfold lineEnd? lineBreak?
  rw [hname.skipBlanks_append]
  split
  · exact absurd ‹_› (hname.append_ne_cons (by decide) _ _)
  · split
    · exact absurd ‹_› hne
    · exact absurd ‹_› (hname.append_ne_cons (by decide) _ _)
    · exact absurd ‹_› (hname.append_ne_cons (by decide) _ _)
    · rfl

end IsBareKey

theorem lineEnd?_newline (cs : List Char) : lineEnd? ('\n' :: cs) = some cs := by
  simp [lineEnd?, skipBlanks, Text.isBlank, lineBreak?]

theorem line_newline (cs : List Char) : line ('\n' :: cs) = some (none, cs) := by
  simp [line, lineEnd?_newline]

theorem line_assign {name : String} (hname : IsBareKey name) (hv : node.ReadsFrom v) (cs : List Char) :
    line (name.toList ++ ' ' :: '=' :: ' ' :: (v ++ '\n' :: cs)) = some (some (.assign [] name node), cs) := by
  have hequals : skipBlanks (' ' :: '=' :: ' ' :: (v ++ '\n' :: cs)) = '=' :: ' ' :: (v ++ '\n' :: cs) := by
    rw [skipBlanks_space, skipBlanks_cons (by decide) (by decide)]
  have hkey := hname.key_append ' ' ('=' :: ' ' :: (v ++ '\n' :: cs)) (by decide) (by simp [hequals])
  unfold line
  split
  · exact absurd ‹_› (hname.append_ne_cons (by decide) _ _)
  · exact absurd ‹_› (hname.append_ne_cons (by decide) _ _)
  · rw [hname.lineEnd?_append]
    simp only [hkey, hequals, Option.bind_eq_bind, Option.bind_some]
    rw [hv _ _ (Nat.mul_pos Nat.two_pos (List.length_pos_iff.2 (by simp)))]
    simp [lineEnd?_newline]

theorem line_table {name : String} (hname : IsBareKey name) (cs : List Char) :
    line ('[' :: (name.toList ++ ']' :: '\n' :: cs)) = some (some (.table [] name), cs) := by
  have hclose : skipBlanks (']' :: '\n' :: cs) = ']' :: '\n' :: cs := skipBlanks_cons (by decide) (by decide)
  have hkey := hname.key_append ']' ('\n' :: cs) (by decide) (by simp [hclose])
  -- it opens one table, not one more of several
  have hsingle := hname.append_ne_cons (c := '[') (by decide) (']' :: '\n' :: cs)
  simp [line, hkey, hclose, lineEnd?_newline]

theorem statements_line {statement : Option Statement} {ss : List Statement} (hskip : skipBlanks cs = cs)
    (hline : line cs = some (statement, rest)) (hlt : rest.length < cs.length)
    (hrest : ∀ fuel, rest.length < fuel → statements fuel rest = some ss) :
    ∀ fuel, cs.length < fuel → statements fuel cs = some (statement.toList ++ ss) := by
  intro fuel hfuel
  obtain ⟨fuel, rfl⟩ := Nat.exists_eq_succ_of_ne_zero (Nat.ne_zero_of_lt hfuel)
  have hne : cs ≠ [] := List.ne_nil_of_length_pos (Nat.zero_lt_of_lt hlt)
  have hmore := hrest fuel (by omega)
  rw [statements, hskip]
  simp [hline, hmore]

/-- **A document is read** line by line; a unit of fuel for each character is enough. -/
theorem statements_of_lines {ss : List Statement} (h : Lines cs ss) :
    ∀ fuel, cs.length < fuel → statements fuel cs = some ss := by
  induction h with
  | nil =>
    intro fuel hfuel
    obtain ⟨fuel, rfl⟩ := Nat.exists_eq_succ_of_ne_zero (Nat.ne_zero_of_lt hfuel)
    rfl
  | blank _ ih => exact statements_line (skipBlanks_cons (by decide) (by decide)) (line_newline _) (by simp) ih
  | assign hname hv _ ih =>
    refine statements_line (hname.skipBlanks_append _) (line_assign hname hv _) ?_ ih
    simp
    omega
  | table hname _ ih =>
    refine statements_line (skipBlanks_cons (by decide) (by decide)) (line_table hname _) ?_ ih
    simp
    omega

theorem Lines.ne_mark {ss : List Statement} (h : Lines cs ss) (more : List Char) : cs ≠ '\ufeff' :: more := by
  cases h with
  | nil => simp
  | blank => simp
  | assign hname => exact hname.append_ne_cons (by decide) _ _
  | table => simp

/-- **The table of a document** is what its lines state. -/
theorem parse_of_lines {s : String} {ss : List Statement} (h : Lines s.toList ss) :
    parse s = Members.ofStatements ss := by
  have hread := statements_of_lines h (s.toList.length + 1) (by omega)
  unfold parse
  split
  · exact absurd ‹_› (h.ne_mark _)
  · simp [hread]

end ExampleOverlay.Toml
