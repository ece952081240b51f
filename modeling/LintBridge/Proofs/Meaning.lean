import LintBridge.Data.Coerce
import Mathlib.Data.List.Forall2

/-!
# LintBridge.Proofs.Meaning

What dynamic values say, apart from how they are checked. A `Meaning` relates values to typed ones;
meanings are put together for arrays, for mappings, for values that may be null and for tables, and
of a table's fields some must be there and others have a default.

Main results: a check decides a meaning (`Check.Decides`) if it passes just the values that mean
something, and whatever is put together of checks decides what is put together of their meanings
(`Check.Decides.list` and the theorems after it).
-/

namespace LintBridge.Data

/-! ### What values say -/

/-- Which values say what. -/
abbrev Meaning (α : Type) := Value → α → Prop

namespace Meaning

variable {α : Type}

/-- A text. -/
def text : Meaning Str := fun v s =>
  v = .string s

/-- An integer, or what stands for one. -/
def number : Meaning Int := fun v i =>
  Check.int v = .ok i

/-- An array which says something with every item. -/
def list (means : Meaning α) : Meaning (List α) := fun v l =>
  ∃ vs, v = .array vs ∧ List.Forall₂ means vs l

/-- Null, or what says something. -/
def nullable (means : Meaning α) : Meaning (Option α) := fun v o =>
  match o with
  | none => v = .null
  | some a => v ≠ .null ∧ means v a

/-- A table with texts for keys, which says something with every value. -/
def mapping (means : Meaning α) : Meaning (List (Str × α)) := fun v l =>
  ∃ fields, v = .table fields ∧
    List.Forall₂ (fun field entry => field.1 = entry.1 ∧ means field.2 entry.2) fields l

/-- A table whose fields describe something. -/
def table (describe : Fields → α → Prop) : Meaning α := fun v a =>
  ∃ fields, v = .table fields ∧ describe fields a

@[simp] theorem table_table {describe : Fields → α → Prop} {fields : Fields} {a : α} :
    table describe (.table fields) a ↔ describe fields a := by
  constructor
  · rintro ⟨_, heq, h⟩
    obtain rfl := Value.table.inj heq
    exact h
  · exact fun h => ⟨fields, rfl, h⟩

end Meaning

namespace Fields

variable {α : Type}

/-- The field `name` is there and says `a`. -/
def Gives (fields : Fields) (name : String) (means : Meaning α) (a : α) : Prop :=
  ∃ v, fields.get? name = some v ∧ means v a

/-- The field `name` says `a`, or it is not there and `a` is the default. -/
def MayGive (fields : Fields) (name : String) (default : α) (means : Meaning α) (a : α) : Prop :=
  fields.Gives name means a ∨ (fields.get? name = none ∧ a = default)

/-- Likewise, where a field that is null counts as one that is not there. -/
def MayGiveUnlessNull (fields : Fields) (name : String) (default : α) (means : Meaning α) (a : α) :
    Prop :=
  (∃ v, fields.get? name = some v ∧ v ≠ .null ∧ means v a) ∨
    ((∀ v, fields.get? name = some v → v = .null) ∧ a = default)

theorem gives_int {fields : Fields} {name : String} {i n : Int}
    (h : fields.get? name = some (.int i)) : fields.Gives name .number n ↔ n = i := by
  constructor
  · rintro ⟨v, hv, hn⟩
    obtain rfl := Option.some.inj (h.symm.trans hv)
    exact (Except.ok.inj hn).symm
  · rintro rfl
    exact ⟨_, h, rfl⟩

end Fields

/-! ### Checks that decide what values say -/

/-- A record of two fields is valid if both are. -/
theorem Checked.pair_eq_ok {α β γ : Type} {mk : α → β → γ} {first : γ → α} {second : γ → β}
    {c : Checked α} {c' : Checked β} {x : γ} (hx : mk (first x) (second x) = x)
    (hfirst : ∀ a b, first (mk a b) = a) (hsecond : ∀ a b, second (mk a b) = b) :
    ((build mk).and c).and c' = .ok x ↔ c = .ok (first x) ∧ c' = .ok (second x) := by
  simp only [and_eq_ok, build, Except.ok.injEq, exists_and_left, ↓existsAndEq, and_assoc, true_and]
  constructor
  · rintro ⟨a, ha, b, hb, rfl⟩
    rw [hfirst, hsecond]
    exact ⟨ha, hb⟩
  · rintro ⟨ha, hb⟩
    exact ⟨first x, ha, second x, hb, hx⟩

namespace Check

variable {α : Type} {check : Check α} {means : Meaning α}

/-- The check passes just the values that say something, and yields what they say. -/
def Decides (check : Check α) (means : Meaning α) : Prop :=
  ∀ v a, check v = .ok a ↔ means v a

theorem decides_text : Decides text .text := by
  intro v s
  unfold Meaning.text text
  split
  · simp
  next hne =>
    refine iff_of_false (Checked.fail_ne_ok _ _) ?_
    rintro rfl
    exact absurd rfl (hne s)

theorem decides_int : Decides int .number :=
  fun _ _ => Iff.rfl

/-- A bounded integer is one that is at least the bound; it is not clipped. -/
theorem decides_atLeast (low : Nat) :
    Decides (atLeast low) fun v n => Meaning.number v n ∧ low ≤ n := by
  intro v n
  unfold atLeast Meaning.number
  dsimp only
  cases int v with
  | error issues => simp
  | ok i =>
    show (if (low : Int) ≤ i then .ok i.toNat else Checked.fail .belowMinimum) = .ok n ↔
      (.ok i : Checked Int) = .ok (n : Int) ∧ low ≤ n
    rw [Except.ok.injEq]
    split
    next hlow =>
      rw [Except.ok.injEq]
      constructor
      · rintro rfl
        omega
      · rintro ⟨rfl, -⟩
        exact Int.toNat_natCast n
    next hlow =>
      refine iff_of_false (Checked.fail_ne_ok _ _) ?_
      rintro ⟨rfl, hn⟩
      omega

theorem Decides.eq (h : Decides check means) : means = fun v a => check v = .ok a := by
  funext v a
  exact propext (h v a).symm

/-- The items of an array are valid if each is. -/
theorem items_eq_ok {index : Nat} {vs : List Value} {l : List α} :
    items check index vs = .ok l ↔ List.Forall₂ (fun v a => check v = .ok a) vs l := by
  induction vs generalizing index l with
  | nil =>
    cases l with
    | nil => simp [items]
    | cons a rest => simp [items]
  | cons v vs ih =>
    simp only [items, Checked.and_eq_ok, Checked.build, Except.ok.injEq, Checked.inside_eq_ok, ih,
      exists_and_left, ↓existsAndEq, and_assoc, true_and]
    rw [List.forall₂_cons_left_iff]
    constructor
    · rintro ⟨a, ha, rest, hrest, rfl⟩
      exact ⟨a, rest, ha, hrest, rfl⟩
    · rintro ⟨a, rest, ha, hrest, rfl⟩
      exact ⟨a, ha, rest, hrest, rfl⟩

theorem Decides.list (h : Decides check means) : Decides (list check) (.list means) := by
  intro v l
  rw [h.eq]
  unfold Meaning.list Check.list
  split
  next vs => simp [items_eq_ok]
  next hne =>
    refine iff_of_false (Checked.fail_ne_ok _ _) ?_
    rintro ⟨vs, rfl, -⟩
    exact absurd rfl (hne vs)

theorem Decides.nullable (h : Decides check means) :
    Decides (nullable check) (.nullable means) := by
  intro v o
  unfold Meaning.nullable Check.nullable
  split
  · cases o with
    | none => simp
    | some a => simp
  next hne =>
    cases o with
    | none =>
      show (check v).map some = .ok none ↔ v = .null
      cases check v with
      | error issues => simpa [Except.map] using hne
      | ok a => simpa [Except.map] using hne
    | some a =>
      show (check v).map some = .ok (some a) ↔ v ≠ .null ∧ means v a
      rw [← h v a]
      cases check v with
      | error issues => simp [Except.map]
      | ok b => simpa [Except.map] using fun _ => hne

/-- The entries of a mapping are valid if each value is. -/
theorem entries_eq_ok {fields : Fields} {l : List (Str × α)} : entries check fields = .ok l ↔
    List.Forall₂ (fun field entry => field.1 = entry.1 ∧ check field.2 = .ok entry.2)
      fields l := by
  induction fields generalizing l with
  | nil =>
    cases l with
    | nil => simp [entries]
    | cons entry rest => simp [entries]
  | cons field rest ih =>
    obtain ⟨key, v⟩ := field
    simp only [entries, Checked.and_eq_ok, Checked.build, Except.ok.injEq, Checked.inside_eq_ok, ih,
      exists_and_left, ↓existsAndEq, and_assoc, true_and]
    rw [List.forall₂_cons_left_iff]
    constructor
    · rintro ⟨a, ha, all, hall, rfl⟩
      exact ⟨(key, a), all, ⟨rfl, ha⟩, hall, rfl⟩
    · rintro ⟨⟨name, a⟩, all, ⟨rfl, ha⟩, hall, rfl⟩
      exact ⟨a, ha, all, hall, rfl⟩

theorem Decides.mapping (h : Decides check means) : Decides (mapping check) (.mapping means) := by
  intro v l
  rw [h.eq]
  unfold Meaning.mapping Check.mapping
  split
  next fields => simp [entries_eq_ok]
  next hne =>
    refine iff_of_false (Checked.fail_ne_ok _ _) ?_
    rintro ⟨fields, rfl, -⟩
    exact absurd rfl (hne fields)

theorem decides_table {read : Fields → Checked α} {describe : Fields → α → Prop}
    (h : ∀ fields a, read fields = .ok a ↔ describe fields a) :
    Decides (table read) (.table describe) := by
  intro v a
  unfold Meaning.table table
  split
  next fields => simp [h]
  next hne =>
    refine iff_of_false (Checked.fail_ne_ok _ _) ?_
    rintro ⟨fields, rfl, -⟩
    exact absurd rfl (hne fields)

theorem Decides.required (h : Decides check means) (fields : Fields) (name : String) (a : α) :
    fields.required name check = .ok a ↔ fields.Gives name means a := by
  unfold Fields.required Fields.Gives
  rw [Checked.inside_eq_ok]
  cases hget : fields.get? name with
  | none => simp
  | some v => simp [h v a]

theorem Decides.optional (h : Decides check means) (fields : Fields) (name : String)
    (default a : α) :
    fields.optional name default check = .ok a ↔ fields.MayGive name default means a := by
  unfold Fields.optional Fields.MayGive Fields.Gives
  cases hget : fields.get? name with
  | none => simp [eq_comm]
  | some v => simp [h v a]

/-- An integer that must not be negative. -/
theorem required_natural (fields : Fields) (name : String) (n : Nat) :
    fields.required name (atLeast 0) = .ok n ↔ fields.Gives name .number (n : Int) := by
  rw [(decides_atLeast 0).required]
  simp [Fields.Gives]

theorem optional_natural (fields : Fields) (name : String) (n : Nat) :
    fields.optional name 0 (atLeast 0) = .ok n ↔ fields.MayGive name 0 .number (n : Int) := by
  rw [(decides_atLeast 0).optional]
  simp [Fields.MayGive, Fields.Gives]

theorem run_eq_ok {schema : String} {v : Value} {a : α} :
    check.run schema v = .ok a ↔ check v = .ok a := by
  unfold run
  cases check v with
  | error issues => simp
  | ok b => simp

end Check

end LintBridge.Data
