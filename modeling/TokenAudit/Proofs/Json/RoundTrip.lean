import TokenAudit.Proofs.Json.Number
import TokenAudit.Proofs.Json.Text

/-! A document that is written is read back as it was, and nothing of the text is left. -/

namespace TokenAudit.Json

variable {j v : Json} {k : String} {js : List Json} {rest cs : List Char} {depth fuel n : Nat}

/-- Complete documents whose strings are texts and whose numbers are natural and fit a word. -/
inductive Plain : Json → Prop
  | null : Plain .null
  | bool (b : Bool) : Plain (.bool b)
  | number {n : Nat} (hn : n ≤ JsonNumber.maxWord) : Plain (ofNat n)
  | string (s : String) : Plain (ofString s)
  | array {items : List Json} (h : ∀ j ∈ items, Plain j) : Plain (ofList items)
  | object {fields : List (String × Json)} (h : ∀ f ∈ fields, Plain f.2) : Plain (ofFields fields)

theorem plain_ofList_map {α : Type} {encode : α → Json} {as : List α}
    (h : ∀ a ∈ as, Plain (encode a)) : Plain (ofList (as.map encode)) :=
  .array (List.forall_mem_map.mpr h)

theorem plain_ofStrings (ss : List String) : Plain (ofStrings ss) :=
  plain_ofList_map fun s _ => .string s

theorem skipSpace_cons_space {c : Char} (hc : isSpace c = true) :
    skipSpace (c :: cs) = skipSpace cs := by
  simp [skipSpace, hc]

theorem skipSpace_of_not_space {c : Char} (hc : isSpace c = false) :
    skipSpace (c :: cs) = c :: cs := by
  simp [skipSpace, hc]

theorem skipSpace_newLine (depth : Nat) (cs : List Char) :
    skipSpace (newLine depth ++ cs) = skipSpace cs := by
  have hblanks : ∀ k, skipSpace (List.replicate k ' ' ++ cs) = skipSpace cs := by
    intro k
    induction k with
    | zero => rfl
    | succ k ih =>
      rw [List.replicate_succ, List.cons_append, skipSpace_cons_space rfl, ih]
  rw [newLine, List.cons_append, skipSpace_cons_space rfl, hblanks]

theorem readValue_of_skipSpace (h : skipSpace cs = skipSpace rest) (fuel : Nat) :
    readValue fuel cs = readValue fuel rest := by
  cases fuel with
  | zero => rfl
  | succ fuel => rw [readValue, readValue, h]

theorem isSpace_digit {c : Char} (hc : c.isDigit = true) : isSpace c = false := by
  cases hs : isSpace c with
  | false => rfl
  | true =>
    have hblank : c = ' ' ∨ c = '\n' ∨ c = '\t' ∨ c = '\r' := by
      simpa [isSpace, or_assoc] using hs
    rcases hblank with rfl | rfl | rfl | rfl <;> cases hc

theorem readValue_digit {c : Char} (hc : c.isDigit = true) (r : List Char) (fuel : Nat) :
    readValue (fuel + 1) (c :: r) = readNumber true (c :: r) := by
  rw [readValue, skipSpace_of_not_space (isSpace_digit hc)]
  split <;> simp_all

theorem exists_toDigits_eq_cons (n : Nat) :
    ∃ c r, Nat.toDigits 10 n = c :: r ∧ c.isDigit = true := by
  obtain ⟨c, r, hc⟩ := List.exists_cons_of_ne_nil (Nat.toDigits_ne_nil (n := n) (b := 10))
  refine ⟨c, r, hc, ?_⟩
  exact Nat.isDigit_of_mem_toDigits (n := n) (b := 10) (by decide) (by decide) (by simp [hc])

theorem endsNumber_newLine (depth : Nat) (cs : List Char) : EndsNumber (newLine depth ++ cs) := by
  intro c r h
  obtain ⟨rfl, -⟩ := List.cons.inj h
  decide

theorem endsNumber_comma (cs : List Char) : EndsNumber (',' :: cs) := by
  intro c r h
  obtain ⟨rfl, -⟩ := List.cons.inj h
  decide

/-- The text of a document begins with what is neither a blank nor the end of a list. -/
theorem exists_pretty_eq_cons (hj : Plain j) (depth : Nat) :
    ∃ c r, pretty depth j = c :: r ∧ isSpace c = false ∧ c ≠ ']' := by
  cases hj with
  | null => exact ⟨_, _, rfl, by decide, by decide⟩
  | bool b => cases b <;> exact ⟨_, _, rfl, by decide, by decide⟩
  | @number n hn =>
    obtain ⟨c, r, hc, hdigit⟩ := exists_toDigits_eq_cons n
    refine ⟨c, r, ?_, isSpace_digit hdigit, ?_⟩
    · rw [← hc]
      exact Nat.toList_repr
    · rintro rfl
      cases hdigit
  | string s => exact ⟨_, _, rfl, by decide, by decide⟩
  | @array items h =>
    cases items with
    | nil => exact ⟨_, _, rfl, by decide, by decide⟩
    | cons j js => exact ⟨_, _, rfl, by decide, by decide⟩
  | @object fields h =>
    cases fields with
    | nil => exact ⟨_, _, rfl, by decide, by decide⟩
    | cons f fs => exact ⟨_, _, rfl, by decide, by decide⟩

/-- With fuel for each character the value is read back, and the text behind it is left. -/
def ReadsBack (j : Json) : Prop :=
  ∀ depth fuel rest, (pretty depth j).length ≤ fuel → EndsNumber rest →
    readValue fuel (pretty depth j ++ rest) = ⟨j, some rest⟩

/-- No text of a document is empty, so there is fuel for its first character. -/
theorem ReadsBack.of_succ (hj : Plain j)
    (h : ∀ depth fuel rest, (pretty depth j).length ≤ fuel + 1 → EndsNumber rest →
      readValue (fuel + 1) (pretty depth j ++ rest) = ⟨j, some rest⟩) : ReadsBack j := by
  intro depth fuel rest hfuel hr
  obtain ⟨c, r, hc, -, -⟩ := exists_pretty_eq_cons hj depth
  cases fuel with
  | zero => simp [hc] at hfuel
  | succ fuel => exact h depth fuel rest hfuel hr

theorem endsNumber_prettyItems (depth depth' : Nat) (js : List Json) (cs : List Char) :
    EndsNumber (prettyItems depth js ++ (newLine depth' ++ cs)) := by
  cases js with
  | nil => exact endsNumber_newLine depth' cs
  | cons j js => exact endsNumber_comma _

theorem endsNumber_prettyFields (depth depth' : Nat) (fs : List (JsonString × Json))
    (cs : List Char) : EndsNumber (prettyFields depth fs ++ (newLine depth' ++ cs)) := by
  cases fs with
  | nil => exact endsNumber_newLine depth' cs
  | cons f fs => exact endsNumber_comma _

theorem readItems_comma {more : List Char} {c : Char} {r : List Char}
    (hv : readValue fuel cs = ⟨v, some (',' :: more)⟩) (hmore : skipSpace more = c :: r)
    (hc : c ≠ ']') : readItems (fuel + 1) cs = (readItems fuel (c :: r)).cons v := by
  rw [readItems, hv]
  simp only [skipSpace_of_not_space (show isSpace ',' = false from rfl), hmore]
  split
  · next h => cases h
  · next h => exact absurd (List.cons.inj h).1 hc
  · rfl

theorem readItems_close {more : List Char}
    (hv : readValue fuel cs = ⟨v, some more⟩) (hmore : skipSpace more = ']' :: rest) :
    readItems (fuel + 1) cs = ⟨[v], none, some rest⟩ := by
  rw [readItems, hv]
  simp only [hmore]

theorem skipSpace_pretty (hj : Plain j) (depth : Nat) (cs : List Char) :
    ∃ c r, pretty depth j ++ cs = c :: r ∧ skipSpace (pretty depth j ++ cs) = c :: r ∧ c ≠ ']' := by
  obtain ⟨c, r, hc, hspace, hne⟩ := exists_pretty_eq_cons hj depth
  refine ⟨c, r ++ cs, by rw [hc, List.cons_append], ?_, hne⟩
  rw [hc, List.cons_append, skipSpace_of_not_space hspace]

/-- The items of a list from one on, up to its bracket. -/
theorem readItems_pretty (hplain : ∀ i ∈ j :: js, Plain i) (hreads : ∀ i ∈ j :: js, ReadsBack i)
    (depth depth' : Nat) (hfuel : (pretty depth j ++ prettyItems depth js).length < fuel)
    (rest : List Char) :
    readItems fuel (pretty depth j ++ (prettyItems depth js ++ (newLine depth' ++ ']' :: rest))) =
      ⟨j :: js, none, some rest⟩ := by
  induction js generalizing j fuel with
  | nil =>
    obtain ⟨fuel, rfl⟩ := Nat.exists_eq_succ_of_ne_zero (Nat.ne_of_gt (Nat.zero_lt_of_lt hfuel))
    have hlength : (pretty depth j).length ≤ fuel := by
      simpa [prettyItems, Nat.lt_succ_iff] using hfuel
    have hj := hreads j List.mem_cons_self depth fuel _ hlength
      (endsNumber_prettyItems depth depth' [] (']' :: rest))
    refine readItems_close hj ?_
    rw [prettyItems, List.nil_append, skipSpace_newLine, skipSpace_of_not_space rfl]
  | cons j' js ih =>
    obtain ⟨fuel, rfl⟩ := Nat.exists_eq_succ_of_ne_zero (Nat.ne_of_gt (Nat.zero_lt_of_lt hfuel))
    obtain ⟨hj, hreads'⟩ := List.forall_mem_cons.mp hreads
    obtain ⟨-, hplain'⟩ := List.forall_mem_cons.mp hplain
    simp only [prettyItems, List.length_append, List.length_cons] at hfuel
    have hlength : (pretty depth j).length ≤ fuel := by omega
    have hlength' : (pretty depth j' ++ prettyItems depth js).length < fuel := by
      rw [List.length_append]
      omega
    have hread := hj depth fuel _ hlength
      (endsNumber_prettyItems depth depth' (j' :: js) (']' :: rest))
    obtain ⟨c, r, htext, hskip, hc⟩ := skipSpace_pretty (hplain' j' List.mem_cons_self) depth
      (prettyItems depth js ++ (newLine depth' ++ ']' :: rest))
    simp only [prettyItems, List.cons_append, List.append_assoc] at hread ⊢
    rw [readItems_comma hread (by rw [skipSpace_newLine, hskip]) hc, ← htext,
      ih hplain' hreads' hlength']
    rfl

theorem readFields_comma {more more' : List Char} {key : JsonString} {r : List Char}
    (hk : JsonString.read cs = .ok (key, ':' :: more))
    (hv : readValue fuel more = ⟨v, some (',' :: more')⟩) (hmore : skipSpace more' = '"' :: r) :
    readFields (fuel + 1) cs = (readFields fuel r).cons key v := by
  rw [readFields, hk]
  simp only [skipSpace_of_not_space (show isSpace ':' = false from rfl), hv,
    skipSpace_of_not_space (show isSpace ',' = false from rfl), hmore]

theorem readFields_close {more more' : List Char} {key : JsonString}
    (hk : JsonString.read cs = .ok (key, ':' :: more))
    (hv : readValue fuel more = ⟨v, some more'⟩) (hmore : skipSpace more' = '\x7d' :: rest) :
    readFields (fuel + 1) cs = ⟨[(key, v)], none, some rest⟩ := by
  rw [readFields, hk]
  simp only [skipSpace_of_not_space (show isSpace ':' = false from rfl), hv, hmore]

/-- The value of a field stands behind a blank. -/
theorem ReadsBack.behind_blank (hv : ReadsBack v) (hlength : (pretty depth v).length ≤ fuel)
    (hr : EndsNumber rest) :
    readValue fuel (' ' :: (pretty depth v ++ rest)) = ⟨v, some rest⟩ := by
  rw [readValue_of_skipSpace (skipSpace_cons_space rfl) fuel]
  exact hv depth fuel rest hlength hr

/-- The text of fields as their names and values are given. -/
def asFields (fields : List (String × Json)) : List (JsonString × Json) :=
  fields.map fun (k, v) => (.text k, v)

/-- The fields of an object from one on, whose first quote has been read, up to its brace. -/
theorem readFields_pretty {fields : List (String × Json)}
    (hreads : ∀ f ∈ (k, v) :: fields, ReadsBack f.2) (depth depth' : Nat)
    (hfuel : (pretty depth v ++ prettyFields depth (asFields fields)).length < fuel)
    (rest : List Char) :
    readFields fuel (k.toList.flatMap JsonString.escape ++ '"' :: ':' :: ' ' ::
        (pretty depth v ++ (prettyFields depth (asFields fields) ++
          (newLine depth' ++ '\x7d' :: rest)))) =
      ⟨asFields ((k, v) :: fields), none, some rest⟩ := by
  have hkey : ∀ (s : String) more, JsonString.read (s.toList.flatMap JsonString.escape ++
      '"' :: more) = .ok (.text s, more) := by
    intro s more
    rw [JsonString.read_escaped, String.ofList_toList]
  induction fields generalizing k v fuel with
  | nil =>
    obtain ⟨fuel, rfl⟩ := Nat.exists_eq_succ_of_ne_zero (Nat.ne_of_gt (Nat.zero_lt_of_lt hfuel))
    have hlength : (pretty depth v).length ≤ fuel := by
      simpa [prettyFields, asFields, Nat.lt_succ_iff] using hfuel
    have hv := (hreads (k, v) List.mem_cons_self).behind_blank hlength
      (endsNumber_prettyFields depth depth' (asFields []) ('\x7d' :: rest))
    refine readFields_close (hkey k _) hv ?_
    rw [asFields, List.map_nil, prettyFields, List.nil_append, skipSpace_newLine,
      skipSpace_of_not_space rfl]
  | cons f fields ih =>
    obtain ⟨k', v'⟩ := f
    obtain ⟨fuel, rfl⟩ := Nat.exists_eq_succ_of_ne_zero (Nat.ne_of_gt (Nat.zero_lt_of_lt hfuel))
    obtain ⟨hv, hreads'⟩ := List.forall_mem_cons.mp hreads
    have hmore : asFields ((k', v') :: fields) = (.text k', v') :: asFields fields := rfl
    simp only [hmore, prettyFields, List.length_append, List.length_cons] at hfuel
    have hlength : (pretty depth v).length ≤ fuel := by omega
    have hlength' : (pretty depth v' ++ prettyFields depth (asFields fields)).length < fuel := by
      rw [List.length_append]
      omega
    have hread := hv.behind_blank hlength
      (endsNumber_prettyFields depth depth' (asFields ((k', v') :: fields)) ('\x7d' :: rest))
    simp only [hmore, prettyFields, List.cons_append, List.append_assoc] at hread ⊢
    have hquote : ∀ more, skipSpace (newLine depth ++ (JsonString.print (.text k') ++ more)) =
        '"' :: (k'.toList.flatMap JsonString.escape ++ '"' :: more) := by
      intro more
      rw [skipSpace_newLine, JsonString.print, JsonString.quote, List.cons_append,
        skipSpace_of_not_space rfl]
      simp
    rw [readFields_comma (hkey k _) hread (hquote _), ih hreads' hlength']
    rfl

theorem readsBack_ofNat (hn : n ≤ JsonNumber.maxWord) : ReadsBack (ofNat n) := by
  refine .of_succ (.number hn) fun depth fuel rest _ hr => ?_
  have htext : pretty depth (ofNat n) = Nat.toDigits 10 n := Nat.toList_repr
  obtain ⟨c, r, hc, hdigit⟩ := exists_toDigits_eq_cons n
  have hnumber := readNumber_toDigits hn hr
  rw [hc, List.cons_append] at hnumber
  rw [htext, hc, List.cons_append, readValue_digit hdigit, hnumber]

theorem readsBack_ofString (s : String) : ReadsBack (ofString s) := by
  refine .of_succ (.string s) fun depth fuel rest _ _ => ?_
  have htext : pretty depth (ofString s) ++ rest =
      '"' :: (s.toList.flatMap JsonString.escape ++ '"' :: rest) := by
    simp [ofString, pretty, JsonString.print, JsonString.quote]
  rw [htext, readValue, skipSpace_of_not_space rfl]
  simp only [JsonString.read_escaped, String.ofList_toList, ofString]

theorem readsBack_ofList {items : List Json} (hplain : ∀ j ∈ items, Plain j)
    (hreads : ∀ j ∈ items, ReadsBack j) : ReadsBack (ofList items) := by
  refine .of_succ (.array hplain) fun depth fuel rest hfuel _ => ?_
  cases items with
  | nil => simp [ofList, pretty, readValue, skipSpace, isSpace]
  | cons j js =>
    have htext : pretty depth (ofList (j :: js)) ++ rest =
        '[' :: (newLine (depth + 1) ++ (pretty (depth + 1) j ++
          (prettyItems (depth + 1) js ++ (newLine depth ++ ']' :: rest)))) := by
      simp [ofList, pretty]
    have hlength : (pretty (depth + 1) j ++ prettyItems (depth + 1) js).length < fuel := by
      simp only [ofList, pretty, newLine, List.length_cons, List.length_append] at hfuel ⊢
      omega
    obtain ⟨c, r, hc, hskip, hne⟩ := skipSpace_pretty (hplain j List.mem_cons_self) (depth + 1)
      (prettyItems (depth + 1) js ++ (newLine depth ++ ']' :: rest))
    have hitems := readItems_pretty hplain hreads (depth + 1) depth hlength rest
    rw [hc] at hitems
    rw [htext, readValue, skipSpace_of_not_space rfl]
    simp only [skipSpace_newLine, hskip]
    split
    · next h => exact absurd (List.cons.inj h).1 hne
    · next h => cases h
    · rw [hitems]
      rfl

theorem readsBack_ofFields {fields : List (String × Json)} (hplain : ∀ f ∈ fields, Plain f.2)
    (hreads : ∀ f ∈ fields, ReadsBack f.2) : ReadsBack (ofFields fields) := by
  refine .of_succ (.object hplain) fun depth fuel rest hfuel _ => ?_
  cases fields with
  | nil => simp [ofFields, pretty, readValue, skipSpace, isSpace]
  | cons f fields =>
    obtain ⟨k, v⟩ := f
    have htext : pretty depth (ofFields ((k, v) :: fields)) ++ rest =
        '\x7b' :: (newLine (depth + 1) ++ '"' :: (k.toList.flatMap JsonString.escape ++
          '"' :: ':' :: ' ' :: (pretty (depth + 1) v ++
            (prettyFields (depth + 1) (asFields fields) ++
              (newLine depth ++ '\x7d' :: rest))))) := by
      simp [ofFields, pretty, JsonString.print, JsonString.quote, asFields]
    have hlength : (pretty (depth + 1) v ++
        prettyFields (depth + 1) (asFields fields)).length < fuel := by
      simp only [ofFields, List.map_cons, pretty, newLine, asFields, List.length_cons,
        List.length_append] at hfuel ⊢
      omega
    rw [htext, readValue, skipSpace_of_not_space rfl]
    simp only [skipSpace_newLine, skipSpace_of_not_space (show isSpace '"' = false from rfl),
      readFields_pretty hreads (depth + 1) depth hlength rest]
    rfl

theorem Plain.readsBack (hj : Plain j) : ReadsBack j := by
  induction hj with
  | null =>
    refine .of_succ .null fun depth fuel rest _ _ => ?_
    simp [pretty, readValue, skipSpace, isSpace, readWord]
  | bool b =>
    refine .of_succ (.bool b) fun depth fuel rest _ _ => ?_
    cases b <;> simp [pretty, readValue, skipSpace, isSpace, readWord]
  | number hn => exact readsBack_ofNat hn
  | string s => exact readsBack_ofString s
  | array hplain ih => exact readsBack_ofList hplain ih
  | object hplain ih => exact readsBack_ofFields hplain ih

theorem endsNumber_of_spaces (hr : ∀ c ∈ rest, isSpace c = true) : EndsNumber rest := by
  rintro c r rfl
  have hc : isSpace c = true := hr c List.mem_cons_self
  have hdigit : c.isDigit ≠ true := fun h => by
    rw [isSpace_digit h] at hc
    cases hc
  refine ⟨by simpa using hdigit, ?_, ?_, ?_⟩ <;> rintro rfl <;> cases hc

/-- A document that is written is read back, and blanks behind it are left. -/
theorem read_print_append_spaces (hj : Plain j) (hr : ∀ c ∈ rest, isSpace c = true) :
    Json.read (j.print.toList ++ rest) = ⟨j, some rest⟩ := by
  have htext : j.print.toList = pretty 0 j := String.toList_ofList
  have hfuel : (pretty 0 j).length ≤ (pretty 0 j ++ rest).length + 1 := by
    rw [List.length_append]
    omega
  rw [htext, Json.read, hj.readsBack 0 _ rest hfuel (endsNumber_of_spaces hr)]

/-- A document that is written is read back, and nothing is left. -/
theorem read_print (hj : Plain j) : Json.read j.print.toList = ⟨j, some []⟩ := by
  have hnone : ∀ c ∈ ([] : List Char), isSpace c = true := by simp
  have hread := read_print_append_spaces hj hnone
  rwa [List.append_nil] at hread

end TokenAudit.Json
