import Ash.JournalPublication

/-! # The journal codec

What preparation returns is encoded, and read back from its encoding only: no front and no
extension of a manifest is one. -/

namespace Ash.TransactionManifest
open WorkspaceOperations WorkspacePaths TransactionActions ByteCodecs

variable {hash : Bytes → Digest} {actions : List PreparedAction} {bytes : Bytes}

/-- No extension of a manifest is one. -/
theorem decodeManifest_append {others : List PreparedAction} {more : Bytes}
    (h : decodeManifest hash bytes=.ok actions)
    (hmore : decodeManifest hash (bytes++more)=.ok others) : more=[] := by
  obtain ⟨hacc,-,henc⟩ := decodeManifest_ok_iff.1 h
  obtain ⟨hacc',-,henc'⟩ := decodeManifest_ok_iff.1 hmore
  obtain ⟨-,hlt,front,hfront,rfl⟩ := encodeManifest_ok_iff.1 henc
  obtain ⟨-,hlt',front',hfront',hbytes⟩ := encodeManifest_ok_iff.1 henc'
  generalize hash (manifestMagic++(bigEndian 4 actions.length++front))=sum at hbytes
  generalize hash (manifestMagic++(bigEndian 4 others.length++front'))=sum' at hbytes
  simp only [List.append_assoc,List.append_cancel_left_eq] at hbytes
  -- the counts agree, so that the same actions are read from both
  have hcount := (readU32_ok_iff.2 ⟨hlt',hbytes.symm⟩).symm.trans (readU32_ok_iff.2 ⟨hlt,rfl⟩)
  rw [Except.ok.injEq,Prod.mk.injEq] at hcount
  have hread := (decodeActions_ok_iff.2 ⟨hcount.1,hacc'.fields,hacc'.paths,front',hfront',
    hcount.2.symm⟩).symm.trans
    (decodeActions_ok_iff.2 ⟨rfl,hacc.fields,hacc.paths,front,hfront,rfl⟩)
  rw [Except.ok.injEq,Prod.mk.injEq] at hread
  have hlength := congrArg List.length hread.2
  rw [List.length_append,sum.2,sum'.2] at hlength
  exact List.length_eq_zero_iff.1 (by omega)

/-- Decoding gives the list back, and nothing else that begins or ends otherwise is accepted. -/
structure Faithful (hash : Bytes → Digest) (actions : List PreparedAction) (bytes : Bytes) :
    Prop where
  decodes : decodeManifest hash bytes=.ok actions
  fronts : ∀ front, front <+: bytes → front≠bytes → ∀ others, decodeManifest hash front≠.ok others
  extensions : ∀ more, more≠[] → ∀ others, decodeManifest hash (bytes++more)≠.ok others

theorem faithful_of_decodes (h : decodeManifest hash bytes=.ok actions) :
    Faithful hash actions bytes where
  decodes := h
  fronts := by
    rintro front ⟨more,rfl⟩ hne others hfront
    rw [decodeManifest_append hfront h,List.append_nil] at hne
    exact hne rfl
  extensions more hne others hmore := hne (decodeManifest_append h hmore)

open WorkspaceRules FileTransactions PreparationLoop in
/-- The codec of the journal: what preparation returns is encoded and decoded faithfully, and
every manifest that is accepted is the encoding of its actions. -/
theorem manifest_exact (hash : Bytes → Digest) :
    (∀ {limits : FileTransactionLimits} {actions : List FileAction} {t : Tree},
      ValidActions ⟨false⟩ actions → Spare 0 t → Leaves t →
      Safe .none (fun result _ => ∀ prepared, result=.ok prepared → ∃ bytes,
          encodeManifest hash prepared=.ok bytes ∧ Faithful hash prepared bytes)
        (prepareAll hash ⟨true⟩ limits 0 ⟨0,0⟩ actions) t) ∧
    ∀ bytes actions, decodeManifest hash bytes=.ok actions →
      encodeManifest hash actions=.ok bytes := by
  refine ⟨fun hvalid hspare hleaves => ?_,fun bytes actions h => (decodeManifest_ok_iff.1 h).2.2⟩
  refine safe_prepareAll hvalid.admitted hvalid.shape
    (fun action ha => (List.nodup_flatMap.1 hvalid.nodup).1 action ha)
    (by simpa using hvalid.length_le) hspare hleaves (fun _ _ => rfl) (fun _ _ => trivial) ?_
    fun _ _ _ _ _ _ h => nomatch h
  rintro slots t' - hall _ ⟨⟩
  obtain ⟨bytes,hbytes,-,hdecodes⟩ :=
    decodeManifest_encodeManifest hash (JournalPublication.manifestReady hvalid hall)
  exact ⟨bytes,hbytes,faithful_of_decodes hdecodes⟩

end Ash.TransactionManifest
