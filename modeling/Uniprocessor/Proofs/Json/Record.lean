import Mathlib.Data.List.Nodup
import Uniprocessor.Json.Record
import Uniprocessor.Proofs.Json.Text

/-!
# Records are read field by field

A record that is written is an object whose names are texts.  If they are different, each field is
found under its name, in whatever order the reader asks for them and whatever it leaves out, so that a
reader of a record only has to read the values of its fields.  A reader of a list or of a value that
may be missing has to succeed on what has been written, not on every value.

* `Json.fields?_record`: **the fields of a record are found by name**;
* `Json.fields?_self`: a reader that asks for all fields in order gets the values in order;
* `Json.list?_map`, `optional_ofOption`, `optional_map`: lists and missing values are read item by item;
* `Json.clean_record` and its like: what is written is clean.
-/

namespace Uniprocessor.Json

/-! ## Texts -/

section Texts

variable {s t name : String}

theorem char?_toNat (c : Char) : char? c.toNat = some c :=
  dif_pos c.valid

/-- A text is spelled by its code points. -/
theorem text?_points (s : String) : text? (points s) = some s := by
  have hmapM : ∀ cs : List Char, (cs.map Char.toNat).mapM char? = some cs := by
    intro cs
    induction cs with
    | nil => rfl
    | cons c cs ih => simp [char?_toNat, ih]
  rw [text?, points, hmapM, Option.map_some, String.ofList_toList]

theorem points_inj : points s = points t ↔ s = t := by
  refine ⟨fun h => ?_, congrArg points⟩
  have htext := congrArg text? h
  rw [text?_points, text?_points] at htext
  exact Option.some.inj htext

theorem spelled_points (s : String) : Spelled (points s) := by
  intro p hp
  obtain ⟨c, -, rfl⟩ := List.mem_map.mp hp
  exact c.valid

end Texts

/-! ## What is written is clean -/

section Written

variable {α : Type} {encode : α → Json}

theorem clean_ofNat (n : Nat) : Clean (ofNat n) := by
  rw [ofNat, Clean]
  exact Literal.proper_ofNat n

theorem clean_ofString (s : String) : Clean (ofString s) := by
  rw [ofString, Clean]
  exact spelled_points s

theorem clean_ofOption {o : Option α} (h : ∀ a, o = some a → Clean (encode a)) :
    Clean (ofOption encode o) := by
  cases o with
  | none =>
    rw [ofOption, Clean]
    trivial
  | some a => exact h a rfl

theorem clean_array {as : List α} (h : ∀ a ∈ as, Clean (encode a)) :
    Clean (.array (as.map encode)) := by
  rw [Clean, allClean_iff]
  intro v hv
  obtain ⟨a, ha, rfl⟩ := List.mem_map.mp hv
  exact h a ha

theorem clean_record {fs : List (String × Json)} (h : ∀ f ∈ fs, Clean f.2) :
    Clean (record fs) := by
  rw [record, Clean, fieldsClean_iff]
  intro f hf
  obtain ⟨g, hg, rfl⟩ := List.mem_map.mp hf
  exact ⟨spelled_points g.1, h g hg⟩

end Written

/-! ## Fields -/

section Fields

variable {fs : List (String × Json)} {names : List String} {name : String}

/-- A field is found under its name. -/
theorem field?_record (h : (fs.map Prod.fst).Nodup) (name : String) :
    field? (fs.map fun f => (points f.1, f.2)) name = some (fs.lookup name) := by
  induction fs with
  | nil => rfl
  | cons f fs ih =>
    rw [List.map_cons, List.nodup_cons] at h
    by_cases hname : f.1 = name
    · -- no other field has the name
      have hothers : (fs.map fun f => (points f.1, f.2)).filter
          (fun g => g.1 == points name) = [] := by
        rw [List.filter_eq_nil_iff]
        intro g hg
        obtain ⟨g', hg', rfl⟩ := List.mem_map.mp hg
        rw [beq_iff_eq, points_inj]
        intro heq
        exact h.1 (hname.trans heq.symm ▸ List.mem_map_of_mem hg')
      have hfound : (points f.1 == points name) = true := beq_iff_eq.mpr (congrArg points hname)
      rw [field?, List.map_cons, List.filter_cons, if_pos hfound, hothers, List.lookup_cons, hname,
        beq_self_eq_true]
    · have hne : (points f.1 == points name) = false := by
        rw [beq_eq_false_iff_ne]
        exact fun heq => hname (points_inj.mp heq)
      have hne' : (name == f.1) = false := beq_eq_false_iff_ne.mpr (Ne.symm hname)
      have hrest := ih h.2
      rw [field?] at hrest ⊢
      rw [List.map_cons, List.filter_cons_of_neg (by simp [hne]), List.lookup_cons, hne']
      exact hrest

/-- **The fields of a record are found by name.** -/
theorem fields?_record (h : (fs.map Prod.fst).Nodup) (names : List String) (optional : Nat) :
    fields? names optional (record fs) = some (names.map fun name => fs.lookup name) := by
  have htexts : (fs.map fun f => (points f.1, f.2)).all
      (fun field => (text? field.1).isSome) = true := by
    rw [List.all_eq_true]
    intro g hg
    obtain ⟨f, -, rfl⟩ := List.mem_map.mp hg
    rw [text?_points]
    rfl
  rw [record, fields?, if_pos htexts]
  induction names with
  | nil => rfl
  | cons name names ih => simp [field?_record h, ih]

/-- **A reader that asks for all fields in order gets the values in order.** -/
theorem fields?_self (names : List String) (hnames : fs.map Prod.fst = names) (h : names.Nodup)
    (optional : Nat) :
    fields? names optional (record fs) = some (fs.map fun f => some f.2) := by
  subst hnames
  rw [fields?_record h]
  congr 1
  induction fs with
  | nil => rfl
  | cons f fs ih =>
    rw [List.map_cons, List.nodup_cons] at h
    have hlater : ∀ name ∈ fs.map Prod.fst, (f :: fs).lookup name = fs.lookup name := by
      intro name hmem
      have hne : (name == f.1) = false := by
        rw [beq_eq_false_iff_ne]
        rintro rfl
        exact h.1 hmem
      rw [List.lookup_cons, hne]
    rw [List.map_cons, List.map_cons, List.map_congr_left hlater, ih h.2, List.lookup_cons,
      beq_self_eq_true, List.map_cons]

end Fields

/-! ## Values -/

section Values

variable {α β : Type} {encode : α → Json} {decode : Json → Option β} {f : α → β}

/-- A number below a bound is read back. -/
theorem nat?_ofNat {n bound : Nat} (h : n < bound) : nat? bound (ofNat n) = some n :=
  Literal.nat?_ofNat h

theorem variant?_ofString (s : String) : variant? (ofString s) = some (s, none) := by
  rw [ofString, variant?, text?_points]
  rfl

theorem unitVariant?_ofString (s : String) : unitVariant? (ofString s) = some s := by
  rw [unitVariant?, variant?_ofString]

/-- A case with contents is written as a record of one field. -/
theorem variant?_record (name : String) (v : Json) :
    variant? (record [(name, v)]) = some (name, some v) := by
  rw [record, List.map_singleton, variant?, text?_points]
  rfl

/-- **A list is read item by item.** -/
theorem list?_map {as : List α} (h : ∀ a ∈ as, decode (encode a) = some (f a)) :
    list? decode (.array (as.map encode)) = some (as.map f) := by
  rw [list?]
  induction as with
  | nil => rfl
  | cons a as ih =>
    have ha := h a List.mem_cons_self
    have has := ih fun b hb => h b (List.mem_cons_of_mem _ hb)
    simp [ha, has]

/-- **A value that may be missing is read like one that is there**, unless it is written as what marks
missing values. -/
theorem optional_ofOption {o : Option α} (h : ∀ a, o = some a → decode (encode a) = some (f a))
    (hnull : ∀ a, encode a ≠ .null) :
    optional decode (some (ofOption encode o)) = some (o.map f) := by
  cases o with
  | none => rfl
  | some a =>
    rw [ofOption, optional, h a rfl]
    · rfl
    · exact hnull a

/-- A field that is left out where its value is missing. -/
theorem optional_map {o : Option α} (h : ∀ a, o = some a → decode (encode a) = some (f a))
    (hnull : ∀ a, encode a ≠ .null) : optional decode (o.map encode) = some (o.map f) := by
  cases o with
  | none => rfl
  | some a => exact optional_ofOption (o := some a) h hnull

end Values

end Uniprocessor.Json
