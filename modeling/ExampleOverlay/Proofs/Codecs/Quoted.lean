import ExampleOverlay.Toml.Text
import Mathlib.Tactic.SplitIfs

/-!
# Quoted text reads back

Writing chooses one of four styles by what is in the text, and reading has one loop for a line and one for a
block. Both are compared with a third thing, the grammar of what stands between the quotes (`Style.Body`): whatever
is written in a style is a body of it (`body_written`), and every body of a style, between the quotes of that style,
reads as the text it stands for (`scan_of_body`). What is delicate is quotes: in a block up to two in a row belong
to the text, and those at its end stand right before the closing ones. Main statement: `scan_write`.
-/

namespace ExampleOverlay.Toml.Text

namespace Style

/-- A character that means itself wherever it stands. -/
def Allows (style : Style) (c : Char) : Prop :=
  c ≠ style.quote ∧ (style.escapes → c ≠ '\\') ∧ (isPlain c ∨ style.block ∧ c = '\n')

/-- What is written stands for a text, behind so many quotes that belong to the text as well. -/
inductive Body (style : Style) : (quotes : Nat) → (written text : List Char) → Prop
  | nil {k} : Body style k [] []
  | char {k c w t} : style.Allows c → Body style 0 w t → Body style k (c :: w) (c :: t)
  | quote {k w t} : style.block → k < 2 → Body style (k + 1) w t →
      Body style k (style.quote :: w) (style.quote :: t)
  | escape {k e c w t} : style.escapes → (∀ cs, unescape (e ++ cs) = some (c, cs)) → Body style 0 w t →
      Body style k ('\\' :: e ++ w) (c :: t)

/-- The quotes at either end of a text. -/
def quotes (style : Style) : List Char := List.replicate (if style.block then 3 else 1) style.quote

variable {style : Style} {k : Nat} {c : Char} {w t : List Char}

theorem quote_ne (h : c ≠ '"' ∧ c ≠ '\'') : style.quote ≠ c := by
  unfold quote
  split
  · exact h.1.symm
  · exact h.2.symm

theorem Allows.ne_return (h : style.Allows c) : c ≠ '\r' := by
  rintro rfl
  simpa [isPlain] using h.2.2

theorem Body.head_ne_quote (h : style.Body 2 w t) : w.head? ≠ some style.quote := by
  cases h with
  | nil => simp
  | char hc => simpa using hc.1
  | quote _ hlt => omega
  | escape => simpa using (quote_ne (by decide)).symm

/-- Behind a quote of the text stand at most one more and then something else, or the text ends. -/
theorem Body.after_quote (h : style.Body (k + 1) w t) :
    (w = [] ∧ t = []) ∨ (k = 0 ∧ w = [style.quote] ∧ t = [style.quote]) ∨
      ∀ more : List Char, (w ++ more).take 2 ≠ [style.quote, style.quote] := by
  cases h with
  | nil => exact .inl ⟨rfl, rfl⟩
  | char hc => exact .inr (.inr fun more => by simp [hc.1])
  | escape =>
    have hne : '\\' ≠ style.quote := (quote_ne (by decide)).symm
    exact .inr (.inr fun more => by simp [hne])
  | @quote _ w' _ _ hlt hbody =>
    obtain rfl : k = 0 := by omega
    have hhead := hbody.head_ne_quote
    cases w' with
    | nil =>
      cases hbody
      exact .inr (.inl ⟨rfl, rfl, rfl⟩)
    | cons c w' => exact .inr (.inr fun more => by simpa using hhead)

end Style

open Style

variable {style : Style} {k : Nat} {c : Char} {e cs w t rest : List Char}

/-! ## Reading a line -/

theorem scanLine_char (hblock : style.block = false) (hc : style.Allows c)
    (h : scanLine style.escapes cs = some (t, rest)) : scanLine style.escapes (c :: cs) = some (c :: t, rest) := by
  obtain ⟨hquote, hbackslash, hplain⟩ := hc
  have hquote' : c ≠ quote ⟨style.escapes, false⟩ := hquote
  have hplain' : isPlain c := by simpa [hblock] using hplain
  rw [scanLine, if_neg hquote', if_neg (not_and.2 hbackslash), if_pos hplain', h]
  rfl

theorem scanLine_escape (he : ∀ cs, unescape (e ++ cs) = some (c, cs)) (h : scanLine true cs = some (t, rest)) :
    scanLine true ('\\' :: (e ++ cs)) = some (c :: t, rest) := by
  rw [scanLine, if_neg (by decide), if_pos ⟨rfl, rfl⟩]
  split
  · rename_i hx
    cases (he cs).symm.trans hx
    simp [h]
  · rename_i hnone
    simp [he] at hnone

/-- **A line is read** up to its closing quote. -/
theorem scanLine_of_body (hblock : style.block = false) (h : style.Body k w t) :
    scanLine style.escapes (w ++ style.quote :: rest) = some (t, rest) := by
  induction h with
  | nil => simp [scanLine, quote]
  | char hc _ ih => exact scanLine_char hblock hc ih
  | quote hb => simp [hblock] at hb
  | escape hesc he _ ih =>
    simp only [hesc, List.cons_append, List.append_assoc] at ih ⊢
    exact scanLine_escape he ih

/-! ## Reading a block -/

theorem scanBlock_char (hc : style.Allows c) (h : scanBlock style.escapes .off cs = some (t, rest)) :
    scanBlock style.escapes .off (c :: cs) = some (c :: t, rest) := by
  have hreturn := hc.ne_return
  obtain ⟨hquote, hbackslash, hplain⟩ := hc
  have hplain' : isPlain c ∨ c = '\n' := hplain.imp_right And.right
  have hquote' : c ≠ quote ⟨style.escapes, true⟩ := hquote
  rw [scanBlock, if_neg (by simp [hreturn]), if_neg (by simp), if_neg (by simp), if_neg hquote',
    if_neg (not_and.2 hbackslash), if_pos hplain', h]
  rfl

theorem scanBlock_escape (he : ∀ cs, unescape (e ++ cs) = some (c, cs))
    (h : scanBlock true .off cs = some (t, rest)) : scanBlock true .off ('\\' :: (e ++ cs)) = some (c :: t, rest) := by
  rw [scanBlock, if_neg (by simp), if_neg (by simp), if_neg (by simp), if_neg (by decide), if_pos ⟨rfl, rfl⟩]
  split
  · rename_i hx
    cases (he cs).symm.trans hx
    simp [h]
  · rename_i hnone
    simp [he] at hnone

theorem scanBlock_quote (cs : List Char) : scanBlock style.escapes .off (style.quote :: cs) =
    if cs.take 2 = [style.quote, style.quote] then some (closeBlock style.quote (cs.drop 2))
    else (scanBlock style.escapes .off cs).map fun (text, rest) => (style.quote :: text, rest) := by
  have hquote : style.quote = quote ⟨style.escapes, true⟩ := rfl
  rw [scanBlock, if_neg (by simp [quote_ne]), if_neg (by simp), if_neg (by simp), if_pos hquote]

/-- The quotes that close a block, behind up to two that still belong to the text. -/
theorem scanBlock_close (hk : k ≤ 2) (hrest : rest.head? ≠ some style.quote) :
    scanBlock style.escapes .off (List.replicate (k + 3) style.quote ++ rest) =
      some (List.replicate k style.quote, rest) := by
  have hmore : (List.replicate k style.quote ++ rest).takeWhile (· == style.quote) = List.replicate k style.quote := by
    rw [List.takeWhile_append_of_pos (by simp)]
    cases rest <;> simp_all
  rw [List.replicate_succ, List.cons_append, scanBlock_quote, if_pos (by simp [List.replicate_succ])]
  simp [List.replicate_succ, closeBlock, hmore, hk]

/-- **A block is read** up to its closing quotes. -/
theorem scanBlock_of_body (h : style.Body k w t) (hk : k ≤ 2) (hrest : rest.head? ≠ some style.quote) :
    scanBlock style.escapes .off (w ++ (List.replicate 3 style.quote ++ rest)) = some (t, rest) := by
  induction h with
  | nil => exact scanBlock_close (k := 0) (by omega) hrest
  | char hc _ ih => exact scanBlock_char hc (ih (by omega))
  | quote _ hlt hbody ih =>
    -- quotes at the end of the text make one run with the closing ones, and are read with them
    obtain ⟨rfl, rfl⟩ | ⟨-, rfl, rfl⟩ | hnext := hbody.after_quote
    · exact scanBlock_close (k := 1) (by omega) hrest
    · exact scanBlock_close (k := 2) (by omega) hrest
    · rw [List.cons_append, scanBlock_quote, if_neg (hnext _), ih (by omega)]
      rfl
  | escape hesc he _ ih =>
    simp only [hesc, List.cons_append, List.append_assoc] at ih ⊢
    exact scanBlock_escape he (ih (by omega))

/-! ## Reading any style -/

theorem scan_line (h : ∀ more, cs ≠ style.quote :: style.quote :: more) :
    scan (style.quote :: cs) = scanLine style.escapes cs := by
  obtain ⟨escapes, block⟩ := style
  cases escapes <;> simp_all [scan, quote]

theorem scan_block (style : Style) (cs : List Char) :
    scan (List.replicate 3 style.quote ++ cs) = scanBlock style.escapes .off (dropBreak cs) := by
  obtain ⟨escapes, block⟩ := style
  cases escapes <;> rfl

theorem dropBreak_of_body (h : style.Body k w t) (ht : '\n' ∉ t) :
    dropBreak (w ++ style.quote :: rest) = w ++ style.quote :: rest := by
  have hkeep : ∀ {c : Char} {cs : List Char}, c ≠ '\n' → c ≠ '\r' → dropBreak (c :: cs) = c :: cs := by
    intro c cs hn hr
    simp [dropBreak, hn, hr]
  cases h with
  | nil => exact hkeep (quote_ne (by decide)) (quote_ne (by decide))
  | char hc => exact hkeep (by rintro rfl; simp at ht) hc.ne_return
  | quote => exact hkeep (quote_ne (by decide)) (quote_ne (by decide))
  | escape => exact hkeep (by decide) (by decide)

/-- **Any style is read**, from behind the opening quotes, or from behind the line break after those of a block. -/
theorem scan_of_body (h : style.Body 0 w t) (hrest : rest.head? ≠ some style.quote) :
    scan (style.quotes ++ ((if style.block ∧ '\n' ∈ t then '\n' :: w else w) ++ (style.quotes ++ rest))) =
      some (t, rest) := by
  cases hblock : style.block with
  | false =>
    have hopen : ∀ more, w ++ style.quote :: rest ≠ style.quote :: style.quote :: more := by
      intro more heq
      cases h with
      | nil => simp_all
      | char hc => exact hc.1 (List.cons.inj heq).1
      | quote hb => simp [hblock] at hb
      | escape => exact quote_ne (by decide) (List.cons.inj heq).1.symm
    simpa [quotes, hblock, scan_line hopen] using scanLine_of_body hblock h
  | true =>
    -- the break to drop is there if the text has one itself, and else the text does not begin with one
    have hquotes : style.quotes = List.replicate 3 style.quote := by simp [quotes, hblock]
    rw [hquotes, scan_block]
    split
    · exact scanBlock_of_body h (by omega) hrest
    · have ht : '\n' ∉ t := by simp_all
      rw [List.replicate_succ, List.cons_append, dropBreak_of_body h ht]
      exact scanBlock_of_body h (by omega) hrest

/-! ## Writing -/

theorem unescape_short {x : Char} (h : shortEscape? x = some c) (cs : List Char) :
    unescape ([x] ++ cs) = some (c, cs) := by
  unfold shortEscape? at h
  split at h <;> cases h <;> rfl

theorem codePoint?_hexDigit : ∀ n < 128,
    codePoint? ['0', '0', hexDigit (n / 16), hexDigit (n % 16)] = some (Char.ofNat n) := by
  decide +kernel

theorem lt_of_not_isPlain (h : ¬ isPlain c) : c.toNat < 128 := by
  simp [isPlain] at h
  omega

/-- One character is written as itself, as a letter behind a backslash or by its code point. -/
theorem body_escape (hesc : style.escapes) (h : style.Body 0 w t) : style.Body k (escape c ++ w) (c :: t) := by
  have hquote : style.quote = '"' := by simp [quote, hesc]
  unfold escape
  split
  case h_8 hquote' hbackslash =>
    split
    · exact .char ⟨by simpa [hquote], fun _ => hbackslash, .inl ‹_›⟩ h
    · refine .escape hesc (fun cs => ?_) h
      have hlt : c.toNat < 128 := lt_of_not_isPlain ‹_›
      have hcode := codePoint?_hexDigit c.toNat hlt
      simp [unescape, hcode]
  all_goals exact .escape hesc (unescape_short rfl) h

/-- **Where escapes are read** any text can be written: the third quote in a row is the one that gets a backslash. -/
theorem body_writeEscaped (hesc : style.escapes) (k : Nat) (s : List Char) :
    style.Body k (writeEscaped style.block k s) s := by
  have hquote : style.quote = '"' := by simp [quote, hesc]
  induction s generalizing k with
  | nil => exact .nil
  | cons c s ih =>
    unfold writeEscaped
    split_ifs with hbreak hraw
    · obtain ⟨hblock, rfl⟩ := hbreak
      exact .char ⟨(quote_ne (by decide)).symm, fun _ => by decide, .inr ⟨hblock, rfl⟩⟩ (ih 0)
    · obtain ⟨hblock, rfl, hlt⟩ := hraw
      exact hquote ▸ .quote hblock hlt (ih (k + 1))
    · exact body_escape hesc (ih 0)

theorem le_longestRun (c : Char) (k : Nat) (s : List Char) : k ≤ longestRun c k s := by
  induction s generalizing k with
  | nil => exact Nat.le_refl k
  | cons d s ih =>
    unfold longestRun
    split
    · exact Nat.le_of_succ_le (ih (k + 1))
    · exact Nat.le_max_left ..

/-- How many quotes can stand in a row where they stand for themselves. -/
def Style.run (style : Style) : Nat := if style.block then 2 else 0

/-- **Where no escapes are read** a text is written as it is, if no run of quotes is too long. -/
theorem body_self {s : List Char} (hs : ∀ c ∈ s, c ≠ style.quote → style.Allows c)
    (hrun : longestRun style.quote k s ≤ style.run) : style.Body k s s := by
  induction s generalizing k with
  | nil => exact .nil
  | cons c s ih =>
    have ih' := fun {k} => @ih k fun d hd => hs d (List.mem_cons_of_mem c hd)
    unfold longestRun at hrun
    split at hrun
    · subst c
      have hle := Nat.le_trans (le_longestRun style.quote (k + 1) s) hrun
      unfold run at hle
      split at hle
      · exact .quote ‹_› hle (ih' hrun)
      · omega
    · exact .char (hs c (by simp) ‹_›) (ih' (by omega))

/-- What a text that is written as it is does not hold. -/
theorem styleOf_literal {s : List Char} (h : (styleOf s).escapes = false) :
    (∀ c ∈ s, needsEscape c = false) ∧ ((styleOf s).block = false → '\n' ∉ s) ∧
      longestRun '\'' 0 s ≤ (styleOf s).run := by
  unfold styleOf at *
  dsimp only at *
  split_ifs at * <;> simp_all [run]

/-- What `write` puts between the quotes. -/
def written (s : List Char) : List Char := if (styleOf s).escapes then writeEscaped (styleOf s).block 0 s else s

theorem write_eq (s : List Char) : write s = (styleOf s).quotes ++
    ((if (styleOf s).block ∧ '\n' ∈ s then '\n' :: written s else written s) ++ (styleOf s).quotes) := by
  cases hblock : (styleOf s).block <;> by_cases hbreak : '\n' ∈ s <;> simp [write, written, quotes, hblock, hbreak]

theorem body_written (s : List Char) : (styleOf s).Body 0 (written s) s := by
  unfold written
  cases hesc : (styleOf s).escapes with
  | true => exact body_writeEscaped hesc 0 s
  | false =>
    have hquote : (styleOf s).quote = '\'' := by simp [quote, hesc]
    obtain ⟨hcontrol, hbreak, hrun⟩ := styleOf_literal hesc
    refine body_self (fun c hc hne => ⟨hne, by simp [hesc], ?_⟩) (by rwa [hquote])
    have hc' := hcontrol c hc
    by_cases hn : c = '\n'
    · subst c
      cases hblock : (styleOf s).block with
      | true => exact .inr ⟨rfl, rfl⟩
      | false => exact absurd hc (hbreak hblock)
    · exact .inl (by simpa [needsEscape, hn] using hc')

theorem exists_write_eq_cons (s : List Char) : ∃ cs, write s = (styleOf s).quote :: cs := by
  rw [write_eq, quotes]
  split <;> exact ⟨_, rfl⟩

/-- **A text reads back** as it was written, whatever it holds, if no quote follows it. -/
theorem scan_write (s rest : List Char) (hrest : ∀ style : Style, rest.head? ≠ some style.quote) :
    scan (write s ++ rest) = some (s, rest) := by
  rw [write_eq, List.append_assoc, List.append_assoc]
  exact scan_of_body (body_written s) (hrest _)

end ExampleOverlay.Toml.Text
