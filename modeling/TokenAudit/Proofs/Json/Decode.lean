import Mathlib.Data.List.Nodup
import TokenAudit.Json.Decode

/-! Decoding of what has been encoded: lists, words and records whose keys are distinct. -/

namespace TokenAudit.Json

variable {α : Type} {origin : JsonOrigin}

/-- Decoder `d` gives back what `encode` writes for `a`. -/
def Inverts (d : Decoder α) (encode : α → Json) (a : α) : Prop := d (encode a) = .ok a

theorem inverts_asString (s : String) : Inverts asString ofString s := rfl

theorem inverts_asUInt32 (n : UInt32) : Inverts asUInt32 (fun n => ofNat n.toNat) n := by
  have hn : n.toNat < UInt32.size := n.toNat_lt
  show asUInt32 (.number (.natural n.toNat)) = .ok n
  rw [asUInt32, if_pos hn, UInt32.ofNat_toNat]

theorem inverts_asList {d : Decoder α} {encode : α → Json} {as : List α}
    (h : ∀ a ∈ as, Inverts d encode a) :
    Inverts (asList d) (fun as => ofList (as.map encode)) as := by
  have hitems : (as.map encode).mapM d = .ok as := by
    induction as with
    | nil => rfl
    | cons a as ih =>
      obtain ⟨ha, has⟩ := List.forall_mem_cons.mp h
      have hfirst : d (encode a) = .ok a := ha
      rw [List.map_cons, List.mapM_cons, hfirst, ih has]
      rfl
  show asList d (.array (as.map encode) none) = .ok as
  rw [asList, hitems]
  rfl

theorem inverts_asStrings (ss : List String) : Inverts (asList asString) ofStrings ss :=
  inverts_asList fun s _ => inverts_asString s

theorem Inverts.asOption {d : Decoder α} {encode : α → Json} {a : α} (h : Inverts d encode a)
    (hnull : encode a ≠ .null) : asOption d (encode a) = .ok (some a) := by
  have hd : d (encode a) = .ok a := h
  generalize encode a = j at hd hnull
  cases j with
  | null => exact absurd rfl hnull
  | _ =>
    rw [Json.asOption, hd]
    · rfl
    · exact hnull

/-- A word of a list without repetitions is read as itself. -/
theorem inverts_asVariant {known : List α} {word : α → String}
    (hnodup : (known.map word).Nodup) {a : α} (ha : a ∈ known) :
    Inverts (asVariant origin known word) (fun a => ofString (word a)) a := by
  have hfind : known.find? (fun b => word b == word a) = some a := by
    induction known with
    | nil => cases ha
    | cons b known ih =>
      rw [List.map_cons, List.nodup_cons] at hnodup
      rcases List.mem_cons.mp ha with rfl | ha
      · simp
      · have hne : word b ≠ word a := fun h => hnodup.1 (h ▸ List.mem_map_of_mem ha)
        rw [List.find?_cons_of_neg (by simpa using hne)]
        exact ih hnodup.2 ha
  unfold Inverts asVariant ofString asKey asWord
  simp only [bind, Except.bind, hfind]

section Records

variable {fields : List Field} {entries found : Found}

/-- The entry belongs to a field, whose check it passes. -/
def Fits (fields : List Field) (e : String × Json) : Prop :=
  ∃ f, fields.find? (·.name == e.1) = some f ∧ f.check e.2 = .ok ()

theorem check_needed {d : Decoder α} {name : String} {j : Json} {a : α} (h : d j = .ok a) :
    (Field.needed name d).check j = .ok () := by
  simp [Field.needed, h]

theorem check_optional {d : Decoder α} {name : String} {j : Json} {a : α} (h : d j = .ok a) :
    (Field.optional name d).check j = .ok () := by
  simp [Field.optional, h]

theorem readEntry_of_fits {k : String} {v : Json} (hfits : Fits fields (k, v))
    (hfresh : found.lookup k = none) : readEntry fields found k v = .ok (found ++ [(k, v)]) := by
  obtain ⟨f, hfind, hcheck⟩ := hfits
  simp only at hfind hcheck
  unfold readEntry
  rw [hfind]
  simp [hfresh, hcheck, bind, Except.bind, pure, Except.pure]

theorem foldlM_readEntry (found : Found) (hfits : ∀ e ∈ entries, Fits fields e)
    (hnodup : ((found ++ entries).map (·.1)).Nodup) :
    (entries.map fun (k, v) => (JsonString.text k, v)).foldlM
        (fun found (k, v) => do readEntry fields found (← asKey k) v) found =
      .ok (found ++ entries) := by
  induction entries generalizing found with
  | nil => simp [pure, Except.pure]
  | cons e entries ih =>
    obtain ⟨k, v⟩ := e
    obtain ⟨hfirst, hrest⟩ := List.forall_mem_cons.mp hfits
    have hfresh : found.lookup k = none := by
      rw [List.map_append, List.nodup_append] at hnodup
      rw [List.lookup_eq_none_iff]
      intro p hp
      have hne : p.1 ≠ k := hnodup.2.2 p.1 (List.mem_map_of_mem hp) k (by simp)
      exact bne_iff_ne.mpr hne.symm
    have hstep := readEntry_of_fits hfirst hfresh
    have hmore := ih (found ++ [(k, v)]) hrest (by simpa using hnodup)
    rw [List.append_assoc, List.singleton_append] at hmore
    rw [List.map_cons, List.foldlM_cons]
    show (readEntry fields found k v >>= _) = _
    rw [hstep]
    exact hmore

/-- A record is read from an object whose keys are distinct and belong to it, and which has all
that it requires. -/
theorem asRecord_ofFields (name : String) (hfits : ∀ e ∈ entries, Fits fields e)
    (hnodup : (entries.map (·.1)).Nodup)
    (hrequired : ∀ f ∈ fields, f.required = true → (entries.lookup f.name).isSome = true) :
    asRecord origin name fields (ofFields entries) = .ok entries := by
  have hfold := foldlM_readEntry [] hfits (by simpa using hnodup)
  have hnone : fields.find? (fun f => f.required && (entries.lookup f.name).isNone) = none := by
    rw [List.find?_eq_none]
    intro f hf
    cases hr : f.required with
    | false => simp
    | true =>
      have hsome := hrequired f hf hr
      simpa [Option.isSome_iff_ne_none] using hsome
  rw [List.nil_append] at hfold
  show asRecord origin name fields (.object (entries.map fun (k, v) => (.text k, v)) none) = _
  rw [asRecord, hfold]
  simp only [bind, Except.bind, checkStop, hnone]
  rfl

end Records

end TokenAudit.Json
