import Ash.StoreSystems

/-! # Histories of a result store

An alias stands for the bytes it was returned for as long as it is known, and once released it
is never known again. -/

namespace Ash.ResultStores
open KeyedTables Outcomes

variable {Id : Type} [DecidableEq Id] {hash : List UInt8 → Id} {before after : State Id}
  {history earlier later : List Event}

/-- The alias was returned for these bytes. -/
def Named (history : List Event) (bytes : List UInt8) (ref : ℕ) : Prop :=
  ∃ contents refs, .retained contents refs∈history ∧ (bytes,ref)∈contents.zip refs

variable {ref : ℕ} {contents : List (List UInt8)} {refs : List ℕ}

theorem Named.append_left {bytes : List UInt8} (h : Named history bytes ref) (events : List Event) :
    Named (events++history) bytes ref := by
  obtain ⟨contents,refs,hmem,hzip⟩ := h
  exact ⟨contents,refs,List.mem_append_right events hmem,hzip⟩

theorem named_cons_retained {bytes : List UInt8} :
    Named (.retained contents refs::history) bytes ref ↔
      (bytes,ref)∈contents.zip refs ∨ Named history bytes ref := by
  constructor
  · rintro ⟨contents',refs',hmem,hzip⟩
    obtain heq | hmem := List.mem_cons.1 hmem
    · cases heq
      exact .inl hzip
    · exact .inr ⟨contents',refs',hmem,hzip⟩
  · rintro (hzip | h)
    · exact ⟨contents,refs,List.mem_cons_self,hzip⟩
    · exact h.append_left [_]

theorem named_cons_released {released : ℕ} {bytes : List UInt8} :
    Named (.released released::history) bytes ref ↔ Named history bytes ref := by
  constructor
  · rintro ⟨contents,refs,hmem,hzip⟩
    obtain heq | hmem := List.mem_cons.1 hmem
    · cases heq
    · exact ⟨contents,refs,hmem,hzip⟩
  · exact fun h => h.append_left [_]

/-- The alias is larger than all that were returned before. -/
def Fresh (earlier : List Event) (ref : ℕ) : Prop := ∀ bytes old, Named earlier bytes old → old < ref

/-- What the entries have to do with the events so far. -/
structure Recorded (hash : List UInt8 → Id) (state : State Id) (history : List Event) : Prop where
  named : ∀ bytes ref, Named history bytes ref → ref < state.nextAlias ∧
    ∀ entry, state.byAlias.lookup ref=some entry → entry.Holds hash bytes
  released : ∀ ref, .released ref∈history → ref < state.nextAlias ∧
    state.byAlias.lookup ref=none
  retired : ∀ later ref earlier, history=later++.released ref::earlier →
    ∀ bytes, ¬ Named later bytes ref
  renewed : ∀ later ref earlier bytes, history=later++.released ref::earlier →
    Named earlier bytes ref → (∀ ref', Named later bytes ref' → Fresh earlier ref') ∧
      ∀ ref' entry, state.byAlias.lookup ref'=some entry → entry.content.stored=bytes →
        Fresh earlier ref'

omit [DecidableEq Id] in
theorem recorded_new : Recorded hash State.new [] where
  named _ _ h := by
    obtain ⟨_,_,hmem,-⟩ := h
    cases hmem
  released _ h := nomatch h
  retired later ref earlier h := by
    cases later <;> cases h
  renewed later ref earlier bytes h := by
    cases later <;> cases h

omit [DecidableEq Id] in
theorem Recorded.same (h : Recorded hash before history)
    (hents : after.byAlias=before.byAlias) (hnext : after.nextAlias=before.nextAlias) :
    Recorded hash after history := by
  refine ⟨?_,?_,h.retired,?_⟩
  · rw [hents,hnext]
    exact h.named
  · rw [hents,hnext]
    exact h.released
  · rw [hents]
    exact h.renewed

theorem Recorded.retained (h : Recorded hash before history)
    (hret : Retention hash before after contents refs) :
    Recorded hash after (.retained contents refs::history) := by
  -- a known alias is an old one or was not returned before
  have hheld : ∀ bytes ref, (bytes,ref)∈contents.zip refs →
      ∃ entry, after.byAlias.lookup ref=some entry ∧ entry.Holds hash bytes :=
    fun bytes ref hzip => List.forall₂_zip hret.held hzip
  have hgone : ∀ ref, ref < before.nextAlias → before.byAlias.lookup ref=none →
      after.byAlias.lookup ref=none := by
    intro ref hlt hnone
    refine Option.eq_none_iff_forall_ne_some.2 fun entry hentry => ?_
    obtain hold | hnew := hret.entries ref entry hentry
    · rw [hnone] at hold
      cases hold
    · omega
  have hfresh : ∀ later ref earlier bytes, history=later++.released ref::earlier →
      Named earlier bytes ref → ∀ ref' entry, after.byAlias.lookup ref'=some entry →
        entry.content.stored=bytes → Fresh earlier ref' := by
    intro later ref earlier bytes heq hnamed ref' entry hentry hstor
    obtain hold | hnew := hret.entries ref' entry hentry
    · exact (h.renewed later ref earlier bytes heq hnamed).2 ref' entry hold hstor
    · intro other old hother
      have hlt := (h.named other old (by
        rw [heq]
        exact (hother.append_left [.released ref]).append_left later)).1
      omega
  refine ⟨?_,?_,?_,?_⟩
  · intro bytes ref hnamed
    obtain hzip | hnamed := named_cons_retained.1 hnamed
    · obtain ⟨entry,hentry,hholds⟩ := hheld bytes ref hzip
      refine ⟨(hret.indexed.refs ref entry hentry).2,fun entry' hentry' => ?_⟩
      rw [hentry] at hentry'
      exact Option.some.inj hentry' ▸ hholds
    · obtain ⟨hlt,hholds⟩ := h.named bytes ref hnamed
      refine ⟨Nat.lt_of_lt_of_le hlt hret.next,fun entry hentry => ?_⟩
      obtain hold | hnew := hret.entries ref entry hentry
      · exact hholds entry hold
      · omega
  · intro ref hrel
    obtain heq | hmem := List.mem_cons.1 hrel
    · cases heq
    · obtain ⟨hlt,hnone⟩ := h.released ref hmem
      exact ⟨Nat.lt_of_lt_of_le hlt hret.next,hgone ref hlt hnone⟩
  · intro later ref earlier heq bytes hnamed
    obtain ⟨-,hfirst⟩ | ⟨later,rfl,hrest⟩ := List.cons_eq_append_iff.1 heq
    · cases hfirst
    · obtain hzip | hnamed := named_cons_retained.1 hnamed
      · obtain ⟨entry,hentry,-⟩ := hheld bytes ref hzip
        obtain ⟨hlt,hnone⟩ := h.released ref (by
          rw [hrest]
          exact List.mem_append_right _ List.mem_cons_self)
        rw [hgone ref hlt hnone] at hentry
        cases hentry
      · exact h.retired later ref earlier hrest bytes hnamed
  · intro later ref earlier bytes heq hnamed
    obtain ⟨-,hfirst⟩ | ⟨later,rfl,hrest⟩ := List.cons_eq_append_iff.1 heq
    · cases hfirst
    · refine ⟨fun ref' hnamed' => ?_,hfresh later ref earlier bytes hrest hnamed⟩
      obtain hzip | hnamed' := named_cons_retained.1 hnamed'
      · obtain ⟨entry,hentry,hholds⟩ := hheld bytes ref' hzip
        exact hfresh later ref earlier bytes hrest hnamed ref' entry hentry hholds.stored
      · exact (h.renewed later ref earlier bytes hrest hnamed).1 ref' hnamed'

theorem Recorded.release (h : Recorded hash before history) {ref : ℕ} {entry : Entry Id}
    (hidx : Indexed before before.nextAlias) (hgen : Genuine hash before)
    (hentry : before.byAlias.lookup ref=some entry) :
    Recorded hash (ResultStores.released before ref entry) (.released ref::history) := by
  -- what is known afterwards was known before, under another alias
  have hknown : ∀ found other,
      (ResultStores.released before ref entry).byAlias.lookup found=some other →
      found≠ref ∧ before.byAlias.lookup found=some other :=
    fun found other hother => lookup_of_erase hother
  refine ⟨?_,?_,?_,?_⟩
  · intro bytes found hnamed
    obtain ⟨hlt,hholds⟩ := h.named bytes found (named_cons_released.1 hnamed)
    exact ⟨hlt,fun other hother => hholds other (hknown found other hother).2⟩
  · intro found hrel
    obtain heq | hmem := List.mem_cons.1 hrel
    · cases heq
      exact ⟨(hidx.refs ref entry hentry).2,AList.lookup_erase _ _⟩
    · obtain ⟨hlt,hnone⟩ := h.released found hmem
      refine ⟨hlt,Option.eq_none_iff_forall_ne_some.2 fun other hother => ?_⟩
      rw [(hknown found other hother).2] at hnone
      cases hnone
  · intro later found earlier heq bytes hnamed
    obtain ⟨rfl,-⟩ | ⟨later,rfl,hrest⟩ := List.cons_eq_append_iff.1 heq
    · obtain ⟨_,_,hmem,-⟩ := hnamed
      cases hmem
    · exact h.retired later found earlier hrest bytes (named_cons_released.1 hnamed)
  · intro later found earlier bytes heq hnamed
    obtain ⟨rfl,hfirst⟩ | ⟨later,rfl,hrest⟩ := List.cons_eq_append_iff.1 heq
    · cases hfirst
      refine ⟨fun ref' hnamed' => ?_,fun ref' other hother hstor => ?_⟩
      · obtain ⟨_,_,hmem,-⟩ := hnamed'
        cases hmem
      · -- the bytes had one alias only, the released one
        obtain ⟨hne,hbefore⟩ := hknown ref' other hother
        have hholds := (h.named bytes ref hnamed).2 entry hentry
        refine absurd ?_ hne
        exact genuine_unique hidx hgen hbefore hentry (hstor.trans hholds.stored.symm)
    · obtain ⟨hreturned,hlive⟩ := h.renewed later found earlier bytes hrest hnamed
      exact ⟨fun ref' hnamed' => hreturned ref' (named_cons_released.1 hnamed'),
        fun ref' other hother => hlive ref' other (hknown ref' other hother).2⟩

theorem Run.recorded {address : ℕ} {limits : StoreLimits} {sys : System Id}
    (run : Run hash address limits sys history) : Recorded hash sys.store.state history := by
  induction run with
  | new => exact recorded_new
  | step run hstep ih =>
    have hcons := run.consistent
    cases (hstep.spec hcons).2 with
    | same hents hnext => exact ih.same hents hnext
    | retained hret => exact ih.retained hret
    | released hentry heq =>
      rw [heq]
      exact ih.release hcons.balanced.indexed hcons.genuine hentry

/-! ## What a lease reads -/

/-- Without a fault, the lease reads these bytes and every part of them. -/
structure Reads (lease : Content) (bytes : List UInt8) : Prop where
  length : lease.length=bytes.length
  all : ∀ maxBytes, bytes.length ≤ maxBytes → readAll lease false maxBytes=.ok bytes
  range : ∀ offset length maxBytes, length ≤ maxBytes →
    readRange lease false offset length maxBytes=.ok ((bytes.drop offset).take length)

theorem drop_take_clamped (bytes : List UInt8) (offset length : ℕ) :
    (bytes.drop (min offset bytes.length)).take
      (min length (bytes.length - min offset bytes.length))=(bytes.drop offset).take length := by
  obtain hlt | hle := Nat.lt_or_ge bytes.length offset
  · rw [Nat.min_eq_right (Nat.le_of_lt hlt),List.drop_length,
      List.drop_eq_nil_of_le (Nat.le_of_lt hlt),List.take_nil,List.take_nil]
  · rw [Nat.min_eq_left hle,List.take_eq_take_iff,List.length_drop]
    omega

omit [DecidableEq Id] in
theorem Entry.Holds.reads {entry : Entry Id} {bytes : List UInt8} (h : entry.Holds hash bytes) :
    Reads entry.content bytes where
  length := h.length
  all maxBytes hfits := by
    rw [← h.length] at hfits
    rw [readAll,bind_unit_ok_iff,require_ok_iff]
    refine ⟨hfits,?_⟩
    cases entry.content.residency with
    | memory => rw [h.stored]; rfl
    | disk =>
      rw [bind_unit_ok_iff,require_ok_iff,h.stored,h.length]
      exact ⟨⟨rfl,rfl⟩,rfl⟩
  range offset length maxBytes hfits := by
    rw [readRange,bind_unit_ok_iff,require_ok_iff]
    refine ⟨hfits,?_⟩
    rw [h.stored,h.length,← drop_take_clamped bytes offset length]
    cases entry.content.residency with
    | memory => rfl
    | disk =>
      rw [bind_unit_ok_iff,require_ok_iff]
      refine ⟨⟨rfl,?_⟩,rfl⟩
      omega

omit [DecidableEq Id] in
theorem get_holds {state : State Id} {entry : Entry Id} {bytes : List UInt8}
    (hentry : state.byAlias.lookup ref=some entry) (h : entry.Holds hash bytes) :
    ∃ lease, get state ref=.ok lease ∧ Reads lease bytes :=
  ⟨entry.content,by rw [get,hentry],h.reads⟩

omit [DecidableEq Id] in
theorem get_unknown {state : State Id} :
    get state ref=.error (.unknownAlias ref) ↔ state.byAlias.lookup ref=none := by
  unfold get
  split
  · next h => simp [h]
  · next entry h => simp [h]

/-! ## References -/

/-- Equal contents of a group have one alias. -/
theorem Retention.shared {bytes : List UInt8} {i j ref' : ℕ}
    (h : Retention hash before after contents refs) (hi : contents[i]?=some bytes)
    (hj : contents[j]?=some bytes) (hrefi : refs[i]?=some ref) (hrefj : refs[j]?=some ref') :
    ref=ref' := by
  have hheld : ∀ k found, contents[k]?=some bytes → refs[k]?=some found →
      ∃ entry, after.byAlias.lookup found=some entry ∧ entry.Holds hash bytes :=
    fun k found hk hfound => List.forall₂_zip h.held
      (List.mem_of_getElem? (List.getElem?_zip_eq_some.2 ⟨hk,hfound⟩))
  obtain ⟨entry,hentry,hholds⟩ := hheld i ref hi hrefi
  obtain ⟨entry',hentry',hholds'⟩ := hheld j ref' hj hrefj
  exact genuine_unique h.indexed h.genuine hentry hentry' (hholds.stored.trans hholds'.stored.symm)

/-- An alias of the group that was unknown before is a new one. -/
theorem Retention.new {j : ℕ} (h : Retention hash before after contents refs)
    (hj : refs[j]?=some ref) (hunknown : before.byAlias.lookup ref=none) :
    before.nextAlias ≤ ref := by
  have hlen := h.held.length_eq
  obtain ⟨hlt,-⟩ := List.getElem?_eq_some_iff.1 hj
  obtain ⟨entry,hentry,-⟩ := List.forall₂_zip h.held
    (List.mem_of_getElem? (List.getElem?_zip_eq_some.2
      ⟨List.getElem?_eq_getElem (hlen ▸ hlt),hj⟩))
  refine (h.entries ref entry hentry).resolve_left fun hold => ?_
  rw [hunknown] at hold
  cases hold

variable {sys : System Id}

/-- References never change what they stand for, and are never used again. -/
theorem references_immutable (address : ℕ) (limits : StoreLimits) (history : List Event)
    (run : Run hash address limits sys history) :
    (∀ bytes ref, Named history bytes ref →
      get sys.store.state ref=.error (.unknownAlias ref) ∨
        ∃ lease, get sys.store.state ref=.ok lease ∧ Reads lease bytes) ∧
    (∀ bytes lease, lease∈sys.leases → Named history bytes lease.1 → Reads lease.2 bytes) ∧
    (∀ ref, .released ref∈history → get sys.store.state ref=.error (.unknownAlias ref)) ∧
    (∀ later ref earlier, history=later++.released ref::earlier →
      (∀ bytes, ¬ Named later bytes ref) ∧
      ∀ bytes ref', Named earlier bytes ref → Named later bytes ref' →
        ref < ref' ∧ Fresh earlier ref') ∧
    (∀ ref, (release sys.store.state (sys.leasesOf ref) ref).2=.ok () →
      ∀ lease∈sys.leases, lease.1≠ref) ∧
    ∀ spoolFault faults contents after refs,
      retainMany hash sys.store spoolFault faults contents=(after,.ok refs) →
      List.Forall₂ (fun bytes ref => ∃ lease, get after ref=.ok lease ∧ Reads lease bytes)
        contents refs ∧
      (∀ (i j : ℕ) bytes ref ref', contents[i]?=some bytes → contents[j]?=some bytes →
        refs[i]?=some ref → refs[j]?=some ref' → ref=ref') ∧
      ∀ (i j : ℕ) earlier later, i < j → refs[i]?=some earlier → refs[j]?=some later →
        get sys.store.state later=.error (.unknownAlias later) → later∉refs.take j →
        earlier < later := by
  have hcons := run.consistent
  have hrecorded := run.recorded
  refine ⟨?_,?_,?_,?_,?_,?_⟩
  · intro bytes ref hnamed
    cases hentry : sys.store.state.byAlias.lookup ref with
    | none => exact .inl (get_unknown.2 hentry)
    | some entry => exact .inr (get_holds hentry ((hrecorded.named bytes ref hnamed).2 entry hentry))
  · intro bytes lease hlease hnamed
    obtain ⟨id,hentry⟩ := hcons.leases lease hlease
    exact ((hrecorded.named bytes lease.1 hnamed).2 _ hentry).reads
  · exact fun ref hrel => get_unknown.2 (hrecorded.released ref hrel).2
  · intro later ref earlier heq
    refine ⟨hrecorded.retired later ref earlier heq,fun bytes ref' hnamed hnamed' => ?_⟩
    have hfresh := (hrecorded.renewed later ref earlier bytes heq hnamed).1 ref' hnamed'
    exact ⟨hfresh bytes ref hnamed,hfresh⟩
  · intro ref hok lease hlease heq
    obtain ⟨error,hrelease,-⟩ | ⟨entry,-,hnone,-⟩ :=
      hcons.balanced.release_cases (sys.leasesOf ref)
    · rw [hrelease] at hok
      cases hok
    · exact List.countP_eq_zero.1 hnone lease hlease (beq_iff_eq.2 heq)
  · intro spoolFault faults contents after refs heq
    obtain ⟨error,hretain⟩ | ⟨after',refs',hretain,hret,-⟩ :=
      retainMany_spec hcons spoolFault faults contents
    · rw [hretain] at heq
      cases heq
    · rw [hretain] at heq
      cases heq
      refine ⟨?_,fun i j bytes ref ref' => hret.shared,?_⟩
      · exact hret.held.imp fun bytes ref ⟨entry,hentry,hholds⟩ => get_holds hentry hholds
      · intro i j earlier later hij hi hj hunknown hfirst
        exact hret.increasing i j earlier later hij hi hj
          (hret.new hj (get_unknown.1 hunknown)) hfirst

theorem references_immutable_renewed :
    ∃ sys : System (List UInt8),
      Run id 7 ⟨4,2⟩ sys [.retained [[5]] [2],.released 1,.retained [[5]] [1]] ∧
        get sys.store.state 1=.error (.unknownAlias 1) := by
  have hnew : Run id 7 ⟨4,2⟩ (System.new 7 ⟨4,2⟩) [] := .new
  have hfirst := hnew.step (Step.retain _ false ⟨fun _ => false,fun _ => false⟩ [5])
  have hrel := hfirst.step (@Step.release _ _ _ _ 1 rfl)
  have hrun := hrel.step (Step.retain _ false ⟨fun _ => false,fun _ => false⟩ [5])
  exact ⟨_,hrun,(references_immutable 7 ⟨4,2⟩
    [.retained [[5]] [2],.released 1,.retained [[5]] [1]] hrun).2.2.1 1
      (List.mem_cons_of_mem _ List.mem_cons_self)⟩

end Ash.ResultStores
