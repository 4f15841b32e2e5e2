import Ash.CheckedPaths
import Ash.TransactionSteps

/-! # What the readers and writers of a transaction do

Readers see the contents their path names and change nothing; between two buffers
the control callback may stop the ones that ask it.  Writers create one name. -/

namespace Ash.TransactionReads
open FileTrees WorkspaceOperations WorkspaceRules CheckedPaths TransactionActions
open TransactionManifest TransactionSteps

variable {I : Watch} {t t' : Tree} {p q : Path} {i j : ℕ} {hash : Bytes → Digest}
variable {limits : FileTransactionLimits}

/-- Failures that speak of the targets or of the caller, not of the internal state. -/
def BenignStep : StepFailure → Prop
  | .platform e => Benign e
  | _ => True

theorem limits_lt (limits : FileTransactionLimits) : limits.maxFileBytes < 2 ^ 64 := by
  have h₁ := limits.file_le_total
  have h₂ := limits.total_le
  simp only [maxFileTransactionTotalBytes] at h₂
  omega

theorem safe_checkControl {Q : Except StepFailure Unit → Tree → Prop} (hI : I t)
    (hok : Q (.ok ()) t) (hstop : ∀ f, Q (.error (.stopped f)) t) :
    Safe I Q (checkControl.mapError .stopped) t := by
  simp only [checkControl,safe_mapError,safe_bind,safe_askControl,hI,true_and]
  rintro (_ | _ | _)
  · simpa [Except.mapError] using hok
  · simpa [Except.mapError] using hstop .cancelled
  · simpa [Except.mapError] using hstop .timedOut

/-! ## The read loop -/

section Loop

variable {ε : Type} {lift : PlatformError → ε} {before : Act ε Unit} {exceeds : ℕ → Option ε}
variable {sink : Bytes → Act ε Unit} {file : ℕ} {Q : Except ε Bytes → Tree → Prop}

variable {d : Bytes} {m : ℕ}

/-- The loop reads the whole file if its size passes the check: `P seen` is kept by
the prelude, the sink turns it into the invariant of what has been read since. -/
theorem safe_readLoop {P : Bytes → Tree → Prop} {fuel : ℕ} {seen : Bytes}
    (hdata : ∀ seen t, P seen t → t.data file=d) (hI : ∀ seen t, P seen t → I t)
    (hbefore : ∀ seen t, P seen t → Safe I (fun r t' => match r with
      | .ok _ => P seen t'
      | .error e => Q (.error e) t') before t)
    (hsink : ∀ seen buffer t, P seen t → Safe I (fun r t' => match r with
      | .ok _ => P (seen++buffer) t'
      | .error e => Q (.error e) t') (sink buffer) t)
    (hexceeds : ∀ n e, n ≤ d.length → exceeds n=some e → ∀ seen t, P seen t → Q (.error e) t)
    (hmax : ∀ n, exceeds n=none → n ≤ m) (hdone : d.length ≤ m → ∀ t, P d t → Q (.ok d) t)
    (hseen : seen <+: d) (hle : seen.length ≤ m) (hfuel : m < fuel+seen.length) (h : P seen t) :
    Safe I Q (readLoop lift before exceeds sink file fuel seen) t := by
  induction fuel generalizing seen t with
  | zero => omega
  | succ fuel ih =>
    rw [readLoop]
    refine safe_bind.2 (safe_post (hbefore seen t h) ?_)
    rintro (e | ⟨⟩) t₁ h₁
    · exact h₁
    · have hi := hI seen t₁ h₁
      simp only [safe_bind,safe_mapError,safe_readAt,hi,true_and,Except.mapError,hdata seen t₁ h₁,
        safe_ite,safe_pure]
      obtain ⟨rest,rfl⟩ := hseen
      rw [List.drop_left']
      · split
        · next hnil =>
          have hrest : rest=[] := by
            rcases List.take_eq_nil_iff.1 hnil with h0 | h0
            · exact absurd h0 (by decide)
            · exact h0
          subst hrest
          rw [List.append_nil] at hdone
          exact hdone hle t₁ h₁
        · next hne =>
          -- some bytes were read: the size check decides
          have hpre : seen++rest.take copyBufferBytes <+: seen++rest :=
            (List.prefix_append_right_inj seen).2 (List.take_prefix _ _)
          have hpos : 0 < (rest.take copyBufferBytes).length := List.length_pos_iff.2 hne
          have hlen := hpre.length_le
          rw [List.length_append] at hlen
          split
          · next e he => exact safe_fail.2 (hexceeds _ e hlen he seen t₁ h₁)
          · next he =>
            refine safe_bind.2 (safe_post (hsink seen _ t₁ h₁) ?_)
            rintro (e | ⟨⟩) t₂ h₂
            · exact h₂
            · have hm := hmax _ he
              refine ih hpre ?_ ?_ h₂ <;> rw [List.length_append] <;> omega
      · rfl

/-- Without a sink the tree stays as it is. -/
theorem safe_readLoop_pure (hdata : t.data file=d) (hI : I t)
    (hbefore : Safe I (fun r t' => match r with
      | .ok _ => t'=t
      | .error e => Q (.error e) t') before t)
    (hexceeds : ∀ n e, n ≤ d.length → exceeds n=some e → Q (.error e) t)
    (hmax : ∀ n, exceeds n=none → n ≤ m) (hdone : d.length ≤ m → Q (.ok d) t) :
    Safe I Q (readLoop lift before exceeds (fun _ => pure ()) file (m+1) []) t := by
  refine safe_readLoop (P := fun _ t' => t'=t) (d := d) (m := m) ?_ ?_ ?_ ?_ ?_ hmax ?_
    List.nil_prefix (Nat.zero_le m) (by simp) rfl
  · rintro _ _ rfl
    exact hdata
  · rintro _ _ rfl
    exact hI
  · rintro _ _ rfl
    exact hbefore
  · rintro _ _ _ rfl
    simp
  · rintro n e hn he _ _ rfl
    exact hexceeds n e hn he
  · rintro hle _ rfl
    exact hdone hle

end Loop

variable {n : ℕ}

variable {m : ℕ} {e : StepFailure}

theorem exceedsCeiling_none (h : exceedsCeiling m n=none) : n ≤ m := by
  unfold exceedsCeiling at h
  split at h
  · cases h
  · split at h
    · cases h
    · omega

theorem exceedsCeiling_some (h : exceedsCeiling m n=some e) :
    BenignStep e ∧ (n ≥ 2 ^ 64 ∨ m < n) := by
  unfold exceedsCeiling at h
  split at h
  · next hn =>
    cases h
    exact ⟨by simp [BenignStep,Benign],.inl hn⟩
  · split at h
    · next hn =>
      cases h
      exact ⟨by simp [BenignStep,Benign],.inr hn⟩
    · cases h

/-! ## Bounded readers -/

section Step

variable {Q : Except StepFailure (Digest × ℕ) → Tree → Prop}

private theorem safe_hashReaderBounded (hI : I t) (hok : (t.data i).length ≤ limits.maxFileBytes →
      Q (.ok (hash (t.data i),(t.data i).length)) t)
    (hstop : ∀ f, Q (.error (.stopped f)) t)
    (hlarge : ∀ e, BenignStep e → limits.maxFileBytes < (t.data i).length → Q (.error e) t) :
    Safe I Q (hashReaderBounded hash i limits.maxFileBytes) t := by
  have hlt := limits_lt limits
  refine safe_bind.2 (safe_readLoop_pure (d := t.data i) rfl hI ?_ ?_ ?_ ?_)
  · exact safe_checkControl hI rfl hstop
  · intro n e hn he
    obtain ⟨hb,hc⟩ := exceedsCeiling_some he
    exact hlarge e hb (by omega)
  · exact fun n => exceedsCeiling_none
  · intro hle
    exact safe_pure.2 (hok hle)

theorem safe_hashFileWithoutCharge (hfile : t.node p=some (.file i))
    (hlen : (t.data i).length ≤ limits.maxFileBytes) (hI : I t)
    (hok : Q (.ok (hash (t.data i),(t.data i).length)) t)
    (hstop : ∀ f, Q (.error (.stopped f)) t) :
    Safe I Q (hashFileWithoutCharge hash p limits) t := by
  simp only [hashFileWithoutCharge,safe_bind,safe_mapError,safe_openFile,hI,true_and,
    inodeOf_file hfile,Except.mapError]
  exact safe_hashReaderBounded hI (fun _ => hok) hstop fun e _ h => absurd hlen (by omega)

end Step

theorem chargeBytes_ok {total total' : ℕ} (h : chargeBytes n limits total=.ok total') :
    n ≤ limits.maxFileBytes ∧ total'=total+n ∧ total' ≤ limits.maxTotalBytes := by
  unfold chargeBytes at h
  split_ifs at h
  cases h
  exact ⟨by omega,rfl,by omega⟩

theorem chargeBytes_error {total : ℕ} (h : chargeBytes n limits total=.error e) :
    BenignStep e := by
  unfold chargeBytes at h
  split_ifs at h
  · cases h; simp [BenignStep,Benign]
  · cases h; simp [BenignStep,Benign]
  · cases h; simp [BenignStep,Benign]

section
variable (hfile : t.node p=some (.file i))
include hfile

theorem safe_hashFileBounded {Q : Except StepFailure ((Digest × ℕ) × ℕ) → Tree → Prop} {total : ℕ}
    (hI : I t) (hok : ∀ total', (t.data i).length ≤ limits.maxFileBytes →
      total'=total+(t.data i).length → total' ≤ limits.maxTotalBytes →
      Q (.ok ((hash (t.data i),(t.data i).length),total')) t)
    (herr : ∀ e, BenignStep e → Q (.error e) t) :
    Safe I Q (hashFileBounded hash p limits total) t := by
  simp only [hashFileBounded,safe_bind,safe_mapError,safe_openFile,hI,true_and,inodeOf_file hfile,
    Except.mapError]
  refine safe_hashReaderBounded hI (fun _ => ?_) (fun f => herr _ trivial) fun e he _ => herr e he
  simp only [safe_ofExcept]
  cases hc : chargeBytes (t.data i).length limits total with
  | error e => exact herr e (chargeBytes_error hc)
  | ok total' =>
    obtain ⟨h₁,h₂,h₃⟩ := chargeBytes_ok hc
    exact safe_pure.2 (hok total' h₁ h₂ h₃)

theorem safe_readStagedReplacement {Q : Except StepFailure Bytes → Tree → Prop}
    (hlen : (t.data i).length ≤ limits.maxFileBytes) (hI : I t) (hok : Q (.ok (t.data i)) t)
    (hstop : ∀ f, Q (.error (.stopped f)) t) :
    Safe I Q (readStagedReplacement hash p (t.data i).length (hash (t.data i)) limits) t := by
  simp only [readStagedReplacement,safe_bind,safe_mapError,safe_symlinkMetadata,hI,true_and,
    stat_file hfile,Except.mapError]
  rw [safe_ite,if_neg (by simpa [Metadata.isFile,Metadata.isSymlink] using hlen)]
  simp only [safe_bind,safe_mapError,safe_openFile,hI,true_and,inodeOf_file hfile,Except.mapError]
  refine safe_readLoop_pure (d := t.data i) rfl hI (safe_checkControl hI rfl hstop) ?_ ?_ ?_
  · intro n e hn he
    rw [if_neg (by omega)] at he
    cases he
  · intro n hn
    by_contra hc
    rw [if_pos (by omega)] at hn
    cases hn
  · intro _
    simpa [safe_ite] using hok

/-! ## Recovery readers -/

theorem safe_hashFileRecovery {Q : Except PlatformError Digest → Tree → Prop} {size : ℕ}
    (hsize : (t.data i).length=size) (hlt : size < 2 ^ 64) (hI : I t)
    (hQ : Q (.ok (hash (t.data i))) t) : Safe I Q (hashFileRecovery hash p size) t := by
  simp only [hashFileRecovery,safe_bind,safe_metadata,hI,true_and,metadata_file hfile,
    Except.mapError]
  rw [safe_ite,if_neg (by simpa using hsize)]
  simp only [safe_bind,safe_openFile,hI,true_and,inodeOf_file hfile,Except.mapError]
  refine safe_readLoop_pure (d := t.data i) rfl hI (by simp) ?_ ?_ ?_
  · intro n e hn he
    rw [if_neg (by omega)] at he
    cases he
  · intro n hn
    by_contra hc
    rw [if_pos (.inr (by omega))] at hn
    cases hn
  · intro _
    simpa [safe_ite,hsize] using hQ

theorem safe_fileMatchesRecovery {Q : Except PlatformError Bool → Tree → Prop} {size : ℕ}
    {digest : Digest} (hlt : size < 2 ^ 64) (hI : I t)
    (hQ : Q (.ok (decide ((t.data i).length=size ∧ hash (t.data i)=digest))) t) :
    Safe I Q (fileMatchesRecovery hash p size digest) t := by
  simp only [fileMatchesRecovery,safe_bind,safe_symlinkMetadata,hI,true_and,stat_file hfile,
    Except.mapError]
  rw [safe_ite,if_neg (by simp [Metadata.isFile,Metadata.isSymlink]),safe_ite]
  by_cases hsize : (t.data i).length=size
  · rw [if_neg (by simpa using hsize)]
    refine safe_bind.2 (safe_hashFileRecovery hfile hsize hlt hI ?_)
    simpa [hsize] using hQ
  · rw [if_pos hsize]
    simpa [hsize] using hQ

end

theorem safe_sameRegularFile {Q : Except PlatformError Bool → Tree → Prop}
    (hp : t.node p=some (.file i)) (hq : t.node q=some (.file j)) (hI : I t)
    (hQ : Q (.ok (i == j)) t) : Safe I Q (sameRegularFile p q) t := by
  simpa [sameRegularFile,stat_file hp,stat_file hq,isSameFile_files hp hq,hI,Except.mapError,
    Metadata.isFile,Metadata.isSymlink] using hQ

theorem safe_readRegularBounded {Q : Except PlatformError Bytes → Tree → Prop} {maxBytes : ℕ}
    (hfile : t.node p=some (.file i)) (hlen : (t.data i).length ≤ maxBytes) (hI : I t)
    (hQ : Q (.ok (t.data i)) t) : Safe I Q (readRegularBounded p maxBytes) t := by
  have htake : (t.data i).take (maxBytes+1)=t.data i := List.take_of_length_le (by omega)
  simp only [readRegularBounded,safe_bind,safe_symlinkMetadata,hI,true_and,stat_file hfile,
    Except.mapError]
  rw [safe_ite,if_neg (by simpa [Metadata.isFile,Metadata.isSymlink] using hlen)]
  simp only [safe_bind,safe_openFile,hI,true_and,inodeOf_file hfile,Except.mapError,safe_readAt,
    List.drop_zero,htake]
  rw [safe_ite,if_neg (by omega)]
  exact safe_pure.2 hQ

theorem safe_regularExists_file {Q : Except PlatformError Bool → Tree → Prop}
    (hfile : t.node p=some (.file i)) (hI : I t) (hQ : Q (.ok true) t) :
    Safe I Q (regularExists p) t := by
  simpa [regularExists,stat_file hfile,hI,Except.mapError,Metadata.isFile] using hQ

theorem safe_regularExists_absent {Q : Except PlatformError Bool → Tree → Prop}
    (h : t.node p=none) (hp : t.node (FileTree.parent p)=some .directory) (hI : I t)
    (hQ : Q (.ok false) t) : Safe I Q (regularExists p) t := by
  simpa [regularExists,stat_absent h hp,hI,Except.mapError] using hQ

theorem safe_pathExists_file {Q : Except PlatformError Bool → Tree → Prop}
    (hfile : t.node p=some (.file i)) (hI : I t) (hQ : Q (.ok true) t) :
    Safe I Q (pathExists p) t := by
  rw [safe_pathExists,hfile]
  exact ⟨hI,hQ⟩

theorem safe_pathExists_absent {Q : Except PlatformError Bool → Tree → Prop}
    (h : t.node p=none) (hI : I t) (hQ : Q (.ok false) t) : Safe I Q (pathExists p) t := by
  simpa [h,hI] using hQ

end Ash.TransactionReads
