import TokenAudit.Contract.Snapshot
import TokenAudit.Proofs.Json.Decode
import TokenAudit.Proofs.Json.RoundTrip

/-! Contracts that are encoded are decoded to themselves: what is unknown of a member stays unknown,
and what is known to be empty stays empty. -/

namespace TokenAudit

open Json

variable {origin : JsonOrigin}

theorem Visibility.inverts_decode (v : Visibility) :
    Inverts (Visibility.decode origin) (fun v => ofString v.keyword) v :=
  inverts_asVariant (by decide) (by cases v <;> decide)

theorem ContractKind.inverts_decode (k : ContractKind) :
    Inverts (ContractKind.decode origin) (fun k => ofString k.keyword) k :=
  inverts_asVariant (by decide) (by cases k <;> decide)

theorem MemberKind.inverts_decode (k : MemberKind) :
    Inverts (MemberKind.decode origin) (fun k => ofString k.keyword) k :=
  inverts_asVariant (by decide) (by cases k <;> decide)

theorem SourceText.inverts_decode (s : SourceText) :
    Inverts (SourceText.decode origin) SourceText.encode s := by
  have hstart : asUInt32 (ofNat s.lineStart.toNat) = .ok s.lineStart := inverts_asUInt32 _
  have hend : asUInt32 (ofNat s.lineEnd.toNat) = .ok s.lineEnd := inverts_asUInt32 _
  have hrecord : asRecord origin "SourceMapping" SourceText.fields s.encode =
      .ok [("file", ofString s.file), ("line_start", ofNat s.lineStart.toNat),
        ("line_end", ofNat s.lineEnd.toNat), ("content", ofString s.content)] := by
    refine asRecord_ofFields _ ?_ (by simp) ?_
    · simp only [List.forall_mem_cons, List.not_mem_nil, false_imp_iff, implies_true, and_true]
      exact ⟨⟨_, rfl, check_needed rfl⟩, ⟨_, rfl, check_needed hstart⟩, ⟨_, rfl, check_needed hend⟩,
        ⟨_, rfl, check_needed rfl⟩⟩
    · simp [SourceText.fields, Field.needed]
  show (asRecord origin "SourceMapping" SourceText.fields s.encode >>= _) = _
  rw [hrecord]
  show (do
    let file ← asString (ofString s.file)
    let lineStart ← asUInt32 (ofNat s.lineStart.toNat)
    let lineEnd ← asUInt32 (ofNat s.lineEnd.toNat)
    let content ← asString (ofString s.content)
    pure { file, lineStart, lineEnd, content }) = Except.ok s
  rw [hstart, hend]
  rfl

namespace Member

/-- The known parts of a member by the names of their fields. -/
def entries (m : Member) : List (String × Json) :=
  [("name", ofString m.name), ("kind", ofString m.kind.keyword),
    ("visibility", ofString m.visibility.keyword)] ++
  (m.modifiers.map fun ms => ("modifiers", ofStrings ms)).toList ++
  (m.source.map fun s => ("source", s.encode)).toList ++
  (m.calls.map fun cs => ("calls", ofStrings cs)).toList

variable {m : Member}

theorem nodup_keys (m : Member) : (m.entries.map (·.1)).Nodup := by
  obtain ⟨name, kind, visibility, modifiers, source, calls⟩ := m
  cases modifiers <;> cases source <;> cases calls <;> simp [entries]

theorem lookup_modifiers (m : Member) :
    m.entries.lookup "modifiers" = m.modifiers.map ofStrings := by
  obtain ⟨name, kind, visibility, modifiers, source, calls⟩ := m
  cases modifiers <;> cases source <;> cases calls <;> rfl

theorem lookup_source (m : Member) :
    m.entries.lookup "source" = m.source.map SourceText.encode := by
  obtain ⟨name, kind, visibility, modifiers, source, calls⟩ := m
  cases modifiers <;> cases source <;> cases calls <;> rfl

theorem lookup_calls (m : Member) : m.entries.lookup "calls" = m.calls.map ofStrings := by
  obtain ⟨name, kind, visibility, modifiers, source, calls⟩ := m
  cases modifiers <;> cases source <;> cases calls <;> rfl

theorem asRecord_encode (m : Member) :
    asRecord origin "FunctionDescriptor" (fields origin) m.encode = .ok m.entries := by
  have hoption : ∀ ss : List String, asOption (asList asString) (ofStrings ss) = .ok (some ss) :=
    fun ss => (inverts_asStrings ss).asOption nofun
  have hsource : ∀ s : SourceText,
      asOption (SourceText.decode origin) s.encode = .ok (some s) :=
    fun s => (SourceText.inverts_decode s).asOption nofun
  refine asRecord_ofFields _ ?_ (nodup_keys m) ?_
  · intro e he
    simp only [List.mem_append, List.mem_cons, List.not_mem_nil, or_false,
      Option.mem_toList, Option.map_eq_some_iff] at he
    rcases he with (((rfl | rfl | rfl) | ⟨ms, -, rfl⟩) | ⟨s, -, rfl⟩) | ⟨cs, -, rfl⟩
    · exact ⟨_, rfl, check_needed (inverts_asString m.name)⟩
    · exact ⟨_, rfl, check_needed (MemberKind.inverts_decode m.kind)⟩
    · exact ⟨_, rfl, check_needed (Visibility.inverts_decode m.visibility)⟩
    · exact ⟨_, rfl, check_optional (hoption ms)⟩
    · exact ⟨_, rfl, check_optional (hsource s)⟩
    · exact ⟨_, rfl, check_optional (hoption cs)⟩
  · simp [fields, Field.needed, Field.optional]

/-- An optional part is decoded to what it was: left out, to what is unknown. -/
theorem getOr_map {α : Type} {d : Decoder α} {encode : α → Json} {name : String} {a : Option α}
    {found : Found} (hl : found.lookup name = a.map encode) (h : ∀ a, Inverts d encode a)
    (hnull : ∀ a, encode a ≠ .null) : found.getOr name (asOption d) none = .ok a := by
  unfold Found.getOr
  rw [hl]
  cases a with
  | none => rfl
  | some a => exact (h a).asOption (hnull a)

theorem inverts_decode (m : Member) : Inverts (Member.decode origin) Member.encode m := by
  have hkind : MemberKind.decode origin (ofString m.kind.keyword) = .ok m.kind :=
    MemberKind.inverts_decode m.kind
  have hvisibility : Visibility.decode origin (ofString m.visibility.keyword) = .ok m.visibility :=
    Visibility.inverts_decode m.visibility
  have hmodifiers := getOr_map (lookup_modifiers m) inverts_asStrings nofun
  have hsource : Found.getOr m.entries "source" (asOption (SourceText.decode origin)) none =
      .ok m.source := getOr_map (lookup_source m) SourceText.inverts_decode nofun
  have hcalls := getOr_map (lookup_calls m) inverts_asStrings nofun
  show (asRecord origin "FunctionDescriptor" (fields origin) m.encode >>= _) = _
  rw [asRecord_encode]
  show (do
    let name ← asString (ofString m.name)
    let kind ← MemberKind.decode origin (ofString m.kind.keyword)
    let visibility ← Visibility.decode origin (ofString m.visibility.keyword)
    let modifiers ← Found.getOr m.entries "modifiers" (asOption (asList asString)) none
    let source ← Found.getOr m.entries "source" (asOption (SourceText.decode origin)) none
    let calls ← Found.getOr m.entries "calls" (asOption (asList asString)) none
    pure { name, kind, visibility, modifiers, source, calls }) = Except.ok m
  rw [hkind, hvisibility, hmodifiers, hsource, hcalls]
  rfl

end Member

theorem Contract.inverts_decode (c : Contract) :
    Inverts (Contract.decode origin) Contract.encode c := by
  have hkind : ContractKind.decode origin (ofString c.kind.keyword) = .ok c.kind :=
    ContractKind.inverts_decode c.kind
  have hinheritance : asList asString (ofStrings c.inheritance) = .ok c.inheritance :=
    inverts_asStrings c.inheritance
  have hmembers : asList (Member.decode origin) (ofList (c.members.map Member.encode)) =
      .ok c.members := inverts_asList fun m _ => Member.inverts_decode m
  have hrecord : asRecord origin "ContractDescriptor" (Contract.fields origin) c.encode =
      .ok [("name", ofString c.name), ("kind", ofString c.kind.keyword), ("file", ofString c.file),
        ("inheritance", ofStrings c.inheritance),
        ("functions", ofList (c.members.map Member.encode))] := by
    refine asRecord_ofFields _ ?_ (by simp) ?_
    · simp only [List.forall_mem_cons, List.not_mem_nil, false_imp_iff, implies_true, and_true]
      exact ⟨⟨_, rfl, check_needed rfl⟩, ⟨_, rfl, check_needed hkind⟩, ⟨_, rfl, check_needed rfl⟩,
        ⟨_, rfl, check_optional hinheritance⟩, ⟨_, rfl, check_optional hmembers⟩⟩
    · simp [Contract.fields, Field.needed, Field.optional]
  show (asRecord origin "ContractDescriptor" (Contract.fields origin) c.encode >>= _) = _
  rw [hrecord]
  show (do
    let name ← asString (ofString c.name)
    let kind ← ContractKind.decode origin (ofString c.kind.keyword)
    let file ← asString (ofString c.file)
    let inheritance ← asList asString (ofStrings c.inheritance)
    let members ← asList (Member.decode origin) (ofList (c.members.map Member.encode))
    pure { name, kind, file, inheritance, members }) = Except.ok c
  rw [hkind, hinheritance, hmembers]
  rfl

theorem Snapshot.inverts_decode (s : Snapshot) :
    Inverts (Snapshot.decode origin) Snapshot.encode s := by
  have hcontracts : asList (Contract.decode origin) (ofList (s.contracts.map Contract.encode)) =
      .ok s.contracts := inverts_asList fun c _ => Contract.inverts_decode c
  have hrecord : asRecord origin "ModelSnapshot" (Snapshot.fields origin) s.encode =
      .ok [("version", ofString s.version), ("engine", ofString s.engine),
        ("contracts", ofList (s.contracts.map Contract.encode))] := by
    refine asRecord_ofFields _ ?_ (by simp) ?_
    · simp only [List.forall_mem_cons, List.not_mem_nil, false_imp_iff, implies_true, and_true]
      exact ⟨⟨_, rfl, check_optional (inverts_asString s.version)⟩,
        ⟨_, rfl, check_optional (inverts_asString s.engine)⟩, ⟨_, rfl, check_needed hcontracts⟩⟩
    · simp [Snapshot.fields, Field.needed, Field.optional]
  show (asRecord origin "ModelSnapshot" (Snapshot.fields origin) s.encode >>= _) = _
  rw [hrecord]
  show (do
    let version ← asString (ofString s.version)
    let engine ← asString (ofString s.engine)
    let contracts ← asList (Contract.decode origin) (ofList (s.contracts.map Contract.encode))
    pure { version, engine, contracts }) = Except.ok s
  rw [hcontracts]
  rfl

section Plain

theorem plain_ofUInt32 (n : UInt32) : Plain (ofNat n.toNat) := by
  have hn : n.toNat < 4294967296 := n.toNat_lt
  refine .number ?_
  unfold JsonNumber.maxWord
  omega

theorem SourceText.plain_encode (s : SourceText) : Plain s.encode := by
  refine .object ?_
  simp only [List.forall_mem_cons, List.not_mem_nil, false_imp_iff, implies_true, and_true]
  exact ⟨.string _, plain_ofUInt32 _, plain_ofUInt32 _, .string _⟩

theorem Member.plain_encode (m : Member) : Plain m.encode := by
  refine .object fun e he => ?_
  simp only [List.mem_append, List.mem_cons, List.not_mem_nil, or_false, Option.mem_toList,
    Option.map_eq_some_iff] at he
  rcases he with (((rfl | rfl | rfl) | ⟨ms, -, rfl⟩) | ⟨s, -, rfl⟩) | ⟨cs, -, rfl⟩
  · exact .string _
  · exact .string _
  · exact .string _
  · exact plain_ofStrings ms
  · exact s.plain_encode
  · exact plain_ofStrings cs

theorem Contract.plain_encode (c : Contract) : Plain c.encode := by
  have hmembers : Plain (ofList (c.members.map Member.encode)) :=
    plain_ofList_map fun m _ => m.plain_encode
  refine .object ?_
  simp only [List.forall_mem_cons, List.not_mem_nil, false_imp_iff, implies_true, and_true]
  exact ⟨.string _, .string _, .string _, plain_ofStrings _, hmembers⟩

theorem Snapshot.plain_encode (s : Snapshot) : Plain s.encode := by
  have hcontracts : Plain (ofList (s.contracts.map Contract.encode)) :=
    plain_ofList_map fun c _ => c.plain_encode
  refine .object ?_
  simp only [List.forall_mem_cons, List.not_mem_nil, false_imp_iff, implies_true, and_true]
  exact ⟨.string _, .string _, hcontracts⟩

end Plain

/-- The text of a snapshot is read back as the snapshot. -/
theorem Snapshot.read_print (s : Snapshot) : Snapshot.read s.print.toList = .ok s := by
  have hdecode : Snapshot.decode .text s.encode = .ok s := s.inverts_decode
  show decodeText (Snapshot.decode .text) s.encode.print.toList = .ok s
  rw [decodeText, Json.read_print s.plain_encode, hdecode]
  rfl

end TokenAudit
