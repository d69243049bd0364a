import ExampleOverlay.Proofs.Codecs.Idents
import ExampleOverlay.Record

/-!
# Items as records, and records as JSON

An item comes back from the record it is stored as, and that record from its JSON form. The other way round more is
read than is written: the fields of a row may be spelled as an object, with its members in any order and others among
them, or as an array of the members in their order, and a name out of a fixed set also as an object that leads to
nothing. `Fields.SpelledBy` says which values spell which fields, and these are read, no others
(`Fields.ofJson?_eq_some_iff`). A record that is read keeps its columns when the item is stored again, though its
payload may be spelled otherwise, and from then on it comes back as it is. Main statement: `Record.columns_survive`.
-/

namespace ExampleOverlay

/-! ## Forms -/

namespace Json

/-- A value gives the members of a form: it leads from each name to a value, whatever else is in it, or it is the
array of these values. -/
inductive Gives (names : List String) (values : List Json) : Json → Prop
  | object {members : List (String × Json)} (leads : names.map (lookup · members) = values.map some) :
      Gives names values (.object members)
  | array : Gives names values (.array values)

/-- A value gives a name out of a fixed set. -/
inductive GivesName (name : String) : Json → Prop
  | text : GivesName name (.text name)
  | object : GivesName name (.object [(name, .null)])

theorem choice?_eq_some_iff {j : Json} {name : String} : j.choice? = some name ↔ j.GivesName name := by
  constructor
  · intro h
    unfold choice? at h
    split at h <;> cases h
    · exact .text
    · exact .object
  · rintro (_ | _) <;> rfl

theorem text?_eq_some_iff {j : Json} {s : String} : j.text? = some s ↔ j = .text s := by
  cases j <;> simp [text?]

theorem bool?_eq_some_iff {j : Json} {b : Bool} : j.bool? = some b ↔ j = .bool b := by
  cases j <;> simp [bool?]

/-- **A form of which no member is missing** is read from what gives all its members. -/
theorem form?_eq_some_map_iff {j : Json} {names : List String} {values : List Json}
    (hlen : values.length = names.length) : j.form? names = some (values.map some) ↔ j.Gives names values := by
  constructor
  · intro h
    cases j with
    | object members => exact .object (Option.some.inj h)
    | array xs =>
      simp only [form?, Option.ite_none_right_eq_some, Option.some.injEq] at h
      -- a member that is missing from the end would be none of the values
      have hfull : List.replicate (names.length - xs.length) (none : Option Json) = [] := by
        rw [List.eq_nil_iff_forall_not_mem]
        intro x hx
        have hnone : (none : Option Json) ∈ values.map some :=
          h.2 ▸ List.mem_append_right _ (List.eq_of_mem_replicate hx ▸ hx)
        simp at hnone
      rw [hfull, List.append_nil] at h
      obtain rfl := (List.map_inj_right fun _ _ => Option.some.inj).1 h.2
      exact .array
    | null => cases h
    | bool b => cases h
    | number m p => cases h
    | text s => cases h
  · rintro (h | _)
    · exact congrArg some h
    · simp [form?, hlen]

end Json

/-! ## Fields -/

/-- The value spells the fields of a header or a query parameter. -/
def KeyValue.SpelledBy (f : KeyValue) (j : Json) : Prop :=
  j.Gives memberNames [.text f.key, .text f.value, .bool f.enabled, .text f.description]

/-- The value spells a condition. -/
def Condition.SpelledBy (c : Condition) (j : Json) : Prop :=
  ∃ comparison : Json, comparison.GivesName c.comparison.name ∧
    j.Gives ["comparison", "path", "value"] [comparison, .text c.path, .text c.value]

/-- The value spells the fields of an assertion. -/
def Assertion.SpelledBy (f : Assertion) (j : Json) : Prop :=
  ∃ condition : Json, f.condition.SpelledBy condition ∧ j.Gives memberNames [condition, .bool f.enabled]

/-- The value spells the fields of a row. -/
def Fields.SpelledBy : {k : Kind} → Fields k → Json → Prop
  | .header, f | .query, f => KeyValue.SpelledBy f
  | .assertion, f => Assertion.SpelledBy f

theorem KeyValue.ofJson?_eq_some_iff {j : Json} {f : KeyValue} : ofJson? j = some f ↔ f.SpelledBy j := by
  refine Iff.trans ?_ (Json.form?_eq_some_map_iff rfl)
  constructor
  · intro h
    unfold ofJson? at h
    split at h
    next key value enabled description hform =>
      simp only [Json.required?, Option.bind_eq_bind, Option.bind_eq_some_iff, Json.text?_eq_some_iff,
        Json.bool?_eq_some_iff] at h
      obtain ⟨_, ⟨_, rfl, rfl⟩, _, ⟨_, rfl, rfl⟩, _, ⟨_, rfl, rfl⟩, _, ⟨_, rfl, rfl⟩, hf⟩ := h
      cases hf
      exact hform
    next => cases h
  · intro h
    simp [ofJson?, h, Json.required?, Json.text?, Json.bool?]

theorem Comparison.ofName?_eq_some_iff {s : String} {c : Comparison} : ofName? s = some c ↔ s = c.name := by
  constructor
  · intro h
    have hname := List.find?_some h
    exact (eq_of_beq hname).symm
  · rintro rfl
    exact ofName?_name c

theorem Comparison.ofJson?_eq_some_iff {j : Json} {c : Comparison} : ofJson? j = some c ↔ j.GivesName c.name := by
  simp [ofJson?, Option.bind_eq_some_iff, Json.choice?_eq_some_iff, ofName?_eq_some_iff]

theorem Condition.ofJson?_eq_some_iff {j : Json} {c : Condition} : ofJson? j = some c ↔ c.SpelledBy j := by
  constructor
  · intro h
    unfold ofJson? at h
    split at h
    next comparison path value hform =>
      simp only [Json.required?, Option.bind_eq_bind, Option.bind_eq_some_iff, Json.text?_eq_some_iff,
        Comparison.ofJson?_eq_some_iff] at h
      obtain ⟨_, ⟨given, rfl, hname⟩, _, ⟨_, rfl, rfl⟩, _, ⟨_, rfl, rfl⟩, hc⟩ := h
      cases hc
      exact ⟨given, hname, (Json.form?_eq_some_map_iff rfl).1 hform⟩
    next => cases h
  · rintro ⟨given, hname, h⟩
    have hform := (Json.form?_eq_some_map_iff rfl).2 h
    simp [ofJson?, hform, Json.required?, Json.text?, Comparison.ofJson?_eq_some_iff.2 hname]

theorem Assertion.ofJson?_eq_some_iff {j : Json} {f : Assertion} : ofJson? j = some f ↔ f.SpelledBy j := by
  constructor
  · intro h
    unfold ofJson? at h
    split at h
    next condition enabled hform =>
      simp only [Json.required?, Option.bind_eq_bind, Option.bind_eq_some_iff, Json.bool?_eq_some_iff,
        Condition.ofJson?_eq_some_iff] at h
      obtain ⟨_, ⟨given, rfl, hcondition⟩, _, ⟨_, rfl, rfl⟩, hf⟩ := h
      cases hf
      exact ⟨given, hcondition, (Json.form?_eq_some_map_iff rfl).1 hform⟩
    next => cases h
  · rintro ⟨given, hcondition, h⟩
    have hform := (Json.form?_eq_some_map_iff rfl).2 h
    simp [ofJson?, hform, Json.required?, Json.bool?, Condition.ofJson?_eq_some_iff.2 hcondition]

/-- **Fields are read from the values that spell them**, and from no others. -/
theorem Fields.ofJson?_eq_some_iff {k : Kind} {j : Json} {f : Fields k} :
    Fields.ofJson? k j = some f ↔ Fields.SpelledBy f j := by
  cases k with
  | header | query => exact KeyValue.ofJson?_eq_some_iff
  | assertion => exact Assertion.ofJson?_eq_some_iff

/-! ## Records -/

theorem Ident.ofJson?_toJson {role : Role} (id : Ident role) : Ident.ofJson? id.toJson = some id := by
  simp [Ident.ofJson?, Ident.toJson, Json.text?, Ident.parse_toText, Except.toOption]

namespace Record

variable {k : Kind} {r : Record} {i : Item k}

/-- **A record is read** if it has the columns of the item and its payload spells the fields. -/
theorem toItem_eq_ok_iff :
    toItem k r = .ok i ↔ Fields.SpelledBy i.fields r.payload ∧ r = { ofItem i with payload := r.payload } := by
  rw [toItem, ← Fields.ofJson?_eq_some_iff]
  by_cases hk : r.kind = k
  · subst hk
    cases hf : Fields.ofJson? r.kind r.payload with
    | none => simp
    | some fields =>
      cases r; cases i
      simp [ofItem]
      tauto
  · refine iff_of_false (by simp [hk]) ?_
    rintro ⟨-, hr⟩
    exact hk (congrArg Record.kind hr)

/-- The members of a record in JSON: `overridden` is left out when it is false, and absent links are `null`. -/
theorem members_toJson (r : Record) : ∃ members : List (String × Json), r.toJson = .object members ∧
    memberNames.map (Json.lookup · members) = [some (.text r.kind.name), some r.id.toJson, some r.owner.toJson,
      some (Json.ofOption Ident.toJson r.parent), some (Json.ofOption Ident.toJson r.prev),
      some (Json.ofOption Ident.toJson r.next), if r.overridden then some (.bool true) else none,
      some r.payload] := by
  refine ⟨_, rfl, ?_⟩
  cases r.overridden <;> simp [memberNames, Json.lookup]

theorem optional?_ofOption (link : Option ItemId) :
    Json.optional? Ident.ofJson? (some (Json.ofOption Ident.toJson link)) = some link := by
  cases link with
  | none => rfl
  | some id =>
    have hread := Ident.ofJson?_toJson id
    simp only [Ident.toJson] at hread
    simp [Json.optional?, Json.ofOption, Ident.toJson, hread]

/-- **A record comes back from its JSON form.** -/
theorem ofJson?_toJson (r : Record) : ofJson? r.toJson = some r := by
  obtain ⟨members, hobject, hmembers⟩ := members_toJson r
  have hform : (Json.object members).form? memberNames = _ := congrArg some hmembers
  unfold ofJson?
  rw [hobject, hform]
  simp only [optional?_ofOption, Json.required?, Option.bind_some, Ident.ofJson?_toJson, Json.choice?,
    Kind.ofName?_name]
  obtain ⟨kind, id, owner, parent, prev, next, overridden, payload⟩ := r
  cases overridden <;> rfl

/-- **The columns of a record survive its reading.** Every item comes back from its record, and from the JSON form of
that record, in which `overridden` is left out when it is false and absent links are `null`. A record is read as an
item if and only if it has the item's columns and its payload spells the item's fields; stored again it keeps all
columns, with the fields as they are written for its payload, and is read as the same item. -/
theorem columns_survive (k : Kind) :
    (∀ i : Item k, toItem k (ofItem i) = .ok i ∧
      (∃ members : List (String × Json), (ofItem i).toJson = .object members ∧
        Json.lookup "overridden" members = (if i.overridden then some (.bool true) else none) ∧
        Json.lookup "delta_parent_id" members = some (Json.ofOption Ident.toJson i.parent) ∧
        Json.lookup "prev" members = some (Json.ofOption Ident.toJson i.prev) ∧
        Json.lookup "next" members = some (Json.ofOption Ident.toJson i.next)) ∧
      ∃ r : Record, ofJson? (ofItem i).toJson = some r ∧ toItem k r = .ok i) ∧
    ∀ (r : Record) (i : Item k),
      (toItem k r = .ok i ↔ Fields.SpelledBy i.fields r.payload ∧ r = { ofItem i with payload := r.payload }) ∧
      (toItem k r = .ok i → ofItem i = { r with payload := Fields.toJson i.fields } ∧ toItem k (ofItem i) = .ok i) := by
  refine ⟨fun i => ⟨toItem_ofItem i, ?_, ofItem i, ofJson?_toJson _, toItem_ofItem i⟩, fun r i =>
    ⟨toItem_eq_ok_iff, fun h => ⟨?_, toItem_ofItem i⟩⟩⟩
  · obtain ⟨members, hobject, hmembers⟩ := members_toJson (ofItem i)
    simp only [memberNames, List.map_cons, List.cons.injEq] at hmembers
    obtain ⟨-, -, -, hparent, hprev, hnext, hoverridden, -⟩ := hmembers
    exact ⟨members, hobject, hoverridden, hparent, hprev, hnext⟩
  · rw [(toItem_eq_ok_iff.1 h).2]
    rfl

/-- A record of an assertion whose payload is spelled with its members the other way round and another one among
them, the condition as an array, and the comparison as an object that leads to nothing. -/
def respelled : Record :=
  ⟨.assertion, ⟨1⟩, ⟨100⟩, some ⟨7⟩, none, some ⟨2⟩, true, .object [("enabled", .bool true), ("note", .null),
    ("condition", .array [.object [("contains", .null)], .text "body", .text "ok"])]⟩

theorem columns_survive_respelled : ∃ i : Item .assertion, toItem .assertion respelled = .ok i ∧
    i.fields.condition = ⟨.contains, "body", "ok"⟩ ∧
    ofItem i = { respelled with payload := Fields.toJson i.fields } ∧ toItem .assertion (ofItem i) = .ok i := by
  obtain ⟨-, hread⟩ := columns_survive .assertion
  let i : Item .assertion := ⟨⟨1⟩, ⟨100⟩, some ⟨7⟩, none, some ⟨2⟩, ⟨⟨.contains, "body", "ok"⟩, true⟩, true⟩
  obtain ⟨hiff, hstored⟩ := hread respelled i
  have hi : toItem .assertion respelled = .ok i :=
    hiff.2 ⟨⟨_, ⟨_, .object, .array⟩, .object rfl⟩, rfl⟩
  exact ⟨i, hi, rfl, hstored hi⟩

end Record

end ExampleOverlay
