import ExampleOverlay.Settings
import ExampleOverlay.Proofs.Codecs.Documents
import Mathlib.Algebra.Group.Nat.Defs

/-!
# Settings read back

Settings are written as five lines, two of them with a number and two with a text in quotes (`lines_render`). What the
lines state is a table (`ofStatements_statements`), and the settings are all in it (`ofMembers?_members`), so no
member that is read back takes its default. What can fail is writing, for a limit that does not fit into a TOML
integer, and reading settings with a limit of zero. Main statement: `reads_back`.
-/

namespace ExampleOverlay

theorem LogFormat.ofName?_name (f : LogFormat) : LogFormat.ofName? f.name = some f := by
  cases f <;> rfl

namespace Settings

open Toml (Node Members Statement Lines)

/-! ## What is written -/

/-- What the document of settings states. -/
def statements (s : Settings) : List Statement :=
  [.assign [] "max_commit_retries" (.integer s.retries.toNat),
    .assign [] "cascade_concurrency" (.integer s.concurrency.toNat), .table [] "log",
    .assign [] "filter" (.text s.log.filter), .assign [] "format" (.text s.log.format.name)]

/-- The table of the document. -/
def members (s : Settings) : Members :=
  [("max_commit_retries", .integer s.retries.toNat), ("cascade_concurrency", .integer s.concurrency.toNat),
    ("log", .table .header [("filter", .text s.log.filter), ("format", .text s.log.format.name)])]

theorem toList_render {s : Settings} {text : String} (h : s.render = .ok text) : text.toList =
    "max_commit_retries".toList ++ ' ' :: '=' :: ' ' :: (Nat.toDigits 10 s.retries.toNat ++ '\n' ::
    ("cascade_concurrency".toList ++ ' ' :: '=' :: ' ' :: (Nat.toDigits 10 s.concurrency.toNat ++ '\n' ::
    ('\n' :: '[' :: ("log".toList ++ ']' :: '\n' ::
    ("filter".toList ++ ' ' :: '=' :: ' ' :: (Toml.Text.write s.log.filter.toList ++ '\n' ::
    ("format".toList ++ ' ' :: '=' :: ' ' :: (Toml.Text.write s.log.format.name.toList ++ '\n' :: []))))))))) := by
  unfold render at h
  split at h
  · cases h
  · cases h
    simp only [toString, String.toList_append, Nat.toList_repr, String.toList_ofList]
    simp

theorem render_eq_error_iff {s : Settings} :
    (∃ e, s.render = .error e) ↔ Int64.maxValue.toInt < (s.concurrency.toNat : Int) := by
  unfold render
  split <;> simp_all

/-- **The document of settings** is five lines with a blank one among them. -/
theorem lines_render {s : Settings} {text : String} (h : s.render = .ok text) : Lines text.toList s.statements := by
  have hconcurrency : (s.concurrency.toNat : Int) ≤ Int64.maxValue.toInt := by
    refine Int.not_lt.1 fun hlt => ?_
    obtain ⟨e, he⟩ := render_eq_error_iff.2 hlt
    simp [he] at h
  have hretries : (s.retries.toNat : Int) ≤ Int64.maxValue.toInt := by
    have hlt := s.retries.toNat_lt
    have hmax : Int64.maxValue.toInt = 2 ^ 63 - 1 := by decide
    omega
  have hfilter := Toml.readsFrom_write s.log.filter.toList
  have hformat := Toml.readsFrom_write s.log.format.name.toList
  rw [String.ofList_toList] at hfilter hformat
  rw [toList_render h]
  exact .assign (by decide) (Toml.readsFrom_toDigits hretries) (.assign (by decide)
    (Toml.readsFrom_toDigits hconcurrency) (.blank (.table (by decide) (.assign (by decide) hfilter
    (.assign (by decide) hformat .nil)))))

/-! ## What is read -/

theorem ofStatements_statements (s : Settings) : Members.ofStatements s.statements = some s.members := by
  simp [statements, members, Members.ofStatements, Toml.Draft.add, Members.within, Members.assign, Members.openTable,
    Members.replace, List.lookup_cons]

/-- A member that is there is read, whatever its default. -/
theorem orDefault_some {α : Type} (default : α) (read : Node → Option α) (v : Node) :
    orDefault default read (some v) = read v := rfl

theorem limit?_natCast {bound n : Nat} (h : n < bound) : limit? bound (.integer n) = some n := by
  simp [limit?, h]

theorem log?_table (form : Toml.Form) (log : LogSettings) :
    log? (.table form [("filter", .text log.filter), ("format", .text log.format.name)]) = some log := by
  simp [log?, List.lookup_cons, orDefault_some, text?, format?, LogFormat.ofName?_name]

/-- **The settings are in the table**, all of them. -/
theorem ofMembers?_members (s : Settings) : ofMembers? s.members = some s := by
  have hretries : s.members.lookup "max_commit_retries" = some (.integer s.retries.toNat) := by simp [members]
  have hconcurrency : s.members.lookup "cascade_concurrency" = some (.integer s.concurrency.toNat) := by
    simp [members, List.lookup_cons]
  have hlog : s.members.lookup "log" = some (.table .header
      [("filter", .text s.log.filter), ("format", .text s.log.format.name)]) := by
    simp [members, List.lookup_cons]
  -- in steps, since a comparison with a bound of 64 bits must not be evaluated
  rw [ofMembers?, hretries, hconcurrency, hlog, orDefault_some, orDefault_some, orDefault_some,
    limit?_natCast s.retries.toNat_lt_size, limit?_natCast s.concurrency.toNat_lt_size, log?_table]
  simp

/-- What is written is read as it was, and then checked. -/
theorem parse_of_render {s : Settings} {text : String} (h : s.render = .ok text) :
    parse text = match s.fault? with
      | none => .ok s
      | some e => .error e := by
  have hread : (Toml.parse text).bind ofMembers? = some s := by
    rw [Toml.parse_of_lines (lines_render h), ofStatements_statements, Option.bind_some, ofMembers?_members]
  rw [parse, hread]
  cases hfault : s.fault? <;> simp [hfault]

theorem fault?_eq_none_iff {s : Settings} : s.fault? = none ↔ s.retries ≠ 0 ∧ s.concurrency ≠ 0 := by
  unfold fault?
  split <;> simp_all

theorem invalid_of_fault? {s : Settings} {e : SettingsError} (h : s.fault? = some e) : ∃ detail, e = .invalid detail := by
  unfold fault? at h
  split at h
  · exact ⟨_, (Option.some.inj h).symm⟩
  · split at h
    · exact ⟨_, (Option.some.inj h).symm⟩
    · cases h

/-! ## Both together -/

/-- **Settings read back.** They cannot be written if and only if a limit is beyond 2 ^ 63 - 1. Otherwise what was
written reads as the same settings if they are accepted, that is if no limit is zero, and else as the error for the
limit that is. -/
theorem reads_back (s : Settings) :
    ((∃ e, s.render = .error e) ↔ 2 ^ 63 - 1 < s.retries.toNat ∨ 2 ^ 63 - 1 < s.concurrency.toNat) ∧
    (s.fault? = none ↔ s.retries ≠ 0 ∧ s.concurrency ≠ 0) ∧
    ∀ text, s.render = .ok text → (s.fault? = none → parse text = .ok s) ∧
      ∀ e, s.fault? = some e → (∃ detail, e = .invalid detail) ∧ parse text = .error e := by
  refine ⟨?_, fault?_eq_none_iff, fun text h => ⟨fun hnone => ?_, fun e he => ⟨invalid_of_fault? he, ?_⟩⟩⟩
  · have hretries := s.retries.toNat_lt
    have hmax : Int64.maxValue.toInt = 2 ^ 63 - 1 := by decide
    rw [render_eq_error_iff]
    omega
  · rw [parse_of_render h, hnone]
  · rw [parse_of_render h, he]

/-- A filter with three quotes of either kind, a backslash, a line break, a control character and a letter that is
not in ASCII is written in a block with escapes. -/
theorem reads_back_quoted :
    parse ("max_commit_retries = 3\ncascade_concurrency = 9\n\n" ++
        "[log]\nfilter = \"\"\"\na='''\"\"\\\"\\\\\n\\u0007é'\"\"\"\nformat = \"json\"\n") =
      .ok ⟨3, 9, ⟨"a='''\"\"\"\\\n\x07é'", .json⟩⟩ ∧
    parse "max_commit_retries = 3\ncascade_concurrency = 0\n\n[log]\nfilter = \"info\"\nformat = \"pretty\"\n" =
      .error (.invalid "cascade_concurrency must be at least 1") := by
  constructor
  · refine ((reads_back _).2.2 _ ?_).1 rfl
    rw [render, if_neg (by decide)]
    exact congrArg Except.ok (by decide +kernel)
  · refine (((reads_back ⟨3, 0, {}⟩).2.2 _ ?_).2 _ rfl).2
    rw [render, if_neg (by decide)]
    exact congrArg Except.ok (by decide +kernel)

end Settings

end ExampleOverlay
