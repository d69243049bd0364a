import ExampleOverlay.Radix
import Mathlib.Data.List.Induction
import Mathlib.Tactic.Ring

/-!
# Numbers and their digits

Writing a number with a fixed width and reading it back drops what does not fit (`value_digits`); reading digits
and writing them back gives the same digits (`digits_value`). Numerals of the same width are ordered as words
like the numbers they denote (`value_lt_value_iff`).
-/

namespace ExampleOverlay.Radix

variable {base width n : Nat} {ds es : List Nat}

/-! ## The value of a numeral -/

theorem value_append (base : Nat) (ds es : List Nat) :
    value base (ds ++ es) = value base ds * base ^ es.length + value base es := by
  induction es using List.reverseRecOn with
  | nil => simp
  | append_singleton es e ih =>
    rw [← List.append_assoc, value_append_singleton, value_append_singleton, ih, List.length_append,
      List.length_singleton, Nat.pow_succ]
    ring

theorem value_cons (base d : Nat) (ds : List Nat) :
    value base (d :: ds) = d * base ^ ds.length + value base ds := by
  have h := value_append base [d] ds
  simpa [value] using h

theorem value_lt (h : ∀ d ∈ ds, d < base) : value base ds < base ^ ds.length := by
  induction ds with
  | nil => simp
  | cons d ds ih =>
    have hd : d + 1 ≤ base := h d (by simp)
    have hds := ih fun e he => h e (by simp [he])
    calc value base (d :: ds) = d * base ^ ds.length + value base ds := value_cons base d ds
      _ < (d + 1) * base ^ ds.length := by rw [Nat.succ_mul]; omega
      _ ≤ base ^ (d :: ds).length := by
        rw [List.length_cons, Nat.pow_succ']
        exact Nat.mul_le_mul_right _ hd

/-! ## Writing and reading -/

theorem lt_of_mem_digits (hb : 0 < base) {d : Nat} (h : d ∈ digits base width n) : d < base := by
  induction width generalizing n with
  | zero => simp [digits] at h
  | succ width ih =>
    simp only [digits, List.mem_append, List.mem_singleton] at h
    rcases h with h | rfl
    · exact ih h
    · exact Nat.mod_lt n hb

/-- **What is written reads back**, up to what does not fit. -/
theorem value_digits (base width n : Nat) : value base (digits base width n) = n % base ^ width := by
  induction width generalizing n with
  | zero => simp [digits, Nat.mod_one]
  | succ width ih =>
    rw [digits, value_append_singleton, ih, Nat.pow_succ', Nat.mod_mul]
    ring

theorem value_digits_of_lt (h : n < base ^ width) : value base (digits base width n) = n := by
  rw [value_digits, Nat.mod_eq_of_lt h]

/-- **What is read is written the same.** -/
theorem digits_value (h : ∀ d ∈ ds, d < base) : digits base ds.length (value base ds) = ds := by
  induction ds using List.reverseRecOn with
  | nil => rfl
  | append_singleton ds d ih =>
    have hd : d < base := h d (by simp)
    have hdiv : (value base ds * base + d) / base = value base ds := by
      rw [Nat.mul_comm, Nat.mul_add_div (by omega), Nat.div_eq_of_lt hd, Nat.add_zero]
    have hmod : (value base ds * base + d) % base = d := by
      rw [Nat.mul_add_mod_self_right, Nat.mod_eq_of_lt hd]
    rw [value_append_singleton, List.length_append, List.length_singleton, digits, hdiv, hmod,
      ih fun e he => h e (by simp [he])]

/-! ## Order -/

/-- **Numerals of one width are ordered by their values.** -/
theorem value_lt_value_iff (hlen : ds.length = es.length) (hd : ∀ d ∈ ds, d < base) (he : ∀ e ∈ es, e < base) :
    value base ds < value base es ↔ ds < es := by
  induction ds generalizing es with
  | nil =>
    cases es with
    | nil => simp
    | cons e es => simp at hlen
  | cons d ds ih =>
    cases es with
    | nil => simp at hlen
    | cons e es =>
      have hlen' : ds.length = es.length := by simpa using hlen
      have hvd := value_lt fun x hx => hd x (List.mem_cons_of_mem d hx)
      have hve := value_lt fun x hx => he x (List.mem_cons_of_mem e hx)
      have hrest := ih hlen' (fun x hx => hd x (List.mem_cons_of_mem d hx)) fun x hx => he x (List.mem_cons_of_mem e hx)
      rw [value_cons, value_cons, List.cons_lt_cons_iff, ← hrest, hlen']
      rw [hlen'] at hvd
      -- the first digits decide, unless they are the same
      rcases Nat.lt_trichotomy d e with h | rfl | h
      · have hstep := Nat.mul_le_mul_right (base ^ es.length) (show d + 1 ≤ e from h)
        rw [Nat.succ_mul] at hstep
        exact iff_of_true (by omega) (.inl h)
      · simp
      · have hstep := Nat.mul_le_mul_right (base ^ es.length) (show e + 1 ≤ d from h)
        rw [Nat.succ_mul] at hstep
        exact iff_of_false (by omega) (by omega)

theorem digits_lt_digits_iff {m : Nat} (hb : 0 < base) (hm : m < base ^ width) (hn : n < base ^ width) :
    digits base width m < digits base width n ↔ m < n := by
  rw [← value_lt_value_iff (by simp) (fun d => lt_of_mem_digits hb) fun e => lt_of_mem_digits hb,
    value_digits_of_lt hm, value_digits_of_lt hn]

end ExampleOverlay.Radix
