import Basu.Creds.Object

/-! A copy of credentials with more added to it (`bus_creds_extend_by_pid`): which of its fields are
marked as augmented. -/

namespace Basu.Creds
open Lib

def busCredsNew : SdBusCreds where
  mask := ∅
  augmented := ∅
  uid := 0
  euid := 0
  suid := 0
  fsuid := 0
  gid := 0
  egid := 0
  sgid := 0
  fsgid := 0
  supplementaryGids := []
  ppid := 0
  pid := 0
  tid := 0
  comm := none
  tidComm := none
  exe := none
  cmdline := none
  cgroup := none
  cgroupRoot := none
  tty := none
  capability := none
  auditSessionId := 0
  auditLoginUid := 0
  label := none
  uniqueName := none
  wellKnownNames := []
  wellKnownNamesDriver := false
  wellKnownNamesLocal := false
  description := none

def copiedFields : Mask :=
  maskOf [.pid, .tid, .ppid] ∪ uidFields ∪ gidFields ∪
    maskOf [.supplementaryGids, .comm, .tidComm, .exe, .cmdline] ∪ capFields ∪
    maskOf [.selinuxContext, .auditSessionId, .auditLoginUid, .tty, .uniqueName, .wellKnownNames,
      .description]

def copiedMask (held mask : Mask) : Mask :=
  held ∩ copiedFields ∪ if held ∩ cgroupFields = ∅ then ∅ else mask ∩ cgroupFields

def copyAsserts (c : SdBusCreds) (held : Mask) : Prop :=
  (Field.comm.bit ∈ held → c.comm.isSome) ∧
  (Field.tidComm.bit ∈ held → c.tidComm.isSome) ∧
  (held ∩ cgroupFields ≠ ∅ → c.cgroup.isSome ∧ c.cgroupRoot.isSome) ∧
  (held ∩ capFields ≠ ∅ → c.capability.isSome) ∧
  (Field.selinuxContext.bit ∈ held → c.label.isSome) ∧
  (Field.uniqueName.bit ∈ held → c.uniqueName.isSome) ∧
  (Field.description.bit ∈ held → c.description.isSome)

instance (c : SdBusCreds) (held : Mask) : Decidable (copyAsserts c held) := by
  unfold copyAsserts
  infer_instance

def copyOver (c : SdBusCreds) (held mask : Mask) : SdBusCreds :=
  { mask := copiedMask held mask
    augmented := c.augmented ∩ copiedMask held mask
    uid := if Field.uid.bit ∈ held then c.uid else 0
    euid := if Field.euid.bit ∈ held then c.euid else 0
    suid := if Field.suid.bit ∈ held then c.suid else 0
    fsuid := if Field.fsuid.bit ∈ held then c.fsuid else 0
    gid := if Field.gid.bit ∈ held then c.gid else 0
    egid := if Field.egid.bit ∈ held then c.egid else 0
    sgid := if Field.sgid.bit ∈ held then c.sgid else 0
    fsgid := if Field.fsgid.bit ∈ held then c.fsgid else 0
    supplementaryGids := if Field.supplementaryGids.bit ∈ held then c.supplementaryGids else []
    ppid := if Field.ppid.bit ∈ held then c.ppid else 0
    pid := if Field.pid.bit ∈ held then c.pid else 0
    tid := if Field.tid.bit ∈ held then c.tid else 0
    comm := if Field.comm.bit ∈ held then c.comm else none
    tidComm := if Field.tidComm.bit ∈ held then c.tidComm else none
    exe := if Field.exe.bit ∈ held then c.exe else none
    cmdline := if Field.cmdline.bit ∈ held then c.cmdline else none
    cgroup := if held ∩ cgroupFields = ∅ then none else c.cgroup
    cgroupRoot := if held ∩ cgroupFields = ∅ then none else c.cgroupRoot
    tty := if Field.tty.bit ∈ held then c.tty else none
    capability := if held ∩ capFields = ∅ then none else c.capability
    auditSessionId := if Field.auditSessionId.bit ∈ held then c.auditSessionId else 0
    auditLoginUid := if Field.auditLoginUid.bit ∈ held then c.auditLoginUid else 0
    label := if Field.selinuxContext.bit ∈ held then c.label else none
    uniqueName := if Field.uniqueName.bit ∈ held then c.uniqueName else none
    wellKnownNames := if Field.wellKnownNames.bit ∈ held then c.wellKnownNames else []
    wellKnownNamesDriver :=
      if Field.wellKnownNames.bit ∈ held then c.wellKnownNamesDriver else false
    wellKnownNamesLocal :=
      if Field.wellKnownNames.bit ∈ held then c.wellKnownNamesLocal else false
    description := if Field.description.bit ∈ held then c.description else none }

def busCredsExtendByPid (lastCap : Nat) (c : SdBusCreds) (mask : Mask) (proc : Proc) :
    Except ProcErrno SdBusCreds :=
  if mask \ c.mask = ∅ ∨ augmentBit ∉ mask then .ok c
  else if copyAsserts c (c.mask ∩ mask) then
    busCredsAddMore lastCap (copyOver c (c.mask ∩ mask) mask) mask 0 0 proc
  else .error .abort

structure Keeps (lastCap : Nat) (missing : Mask) (c c' : SdBusCreds) : Prop where
  held : c.mask ⊆ c'.mask
  added : c'.mask ⊆ c.mask ∪ missing
  augmented : c'.augmented = c.augmented
  cgroup : c'.cgroup = c.cgroup
  root : ∀ r, c.cgroupRoot = some r → c'.cgroupRoot = some r
  value : ∀ f : Field, f.bit ∉ missing → f.bit ∉ cgroupFields →
    c'.value lastCap f = c.value lastCap f

section
variable {lastCap : Nat} {missing : Mask}

theorem Keeps.refl (c : SdBusCreds) : Keeps lastCap missing c c where
  held := subset_rfl
  added := Finset.subset_union_left
  augmented := rfl
  cgroup := rfl
  root := fun _ h => h
  value := fun _ _ _ => rfl

theorem Keeps.trans {c d e : SdBusCreds} (h : Keeps lastCap missing c d)
    (h' : Keeps lastCap missing d e) : Keeps lastCap missing c e where
  held := h.held.trans h'.held
  added := h'.added.trans (Finset.union_subset h.added Finset.subset_union_right)
  augmented := h'.augmented.trans h.augmented
  cgroup := h'.cgroup.trans h.cgroup
  root := fun r hr => h'.root r (h.root r hr)
  value := fun f hf hc => (h'.value f hf hc).trans (h.value f hf hc)

theorem Keeps.of_store {c c' : SdBusCreds} {new : Mask} (hnew : new ⊆ missing)
    (hmask : c'.mask = c.mask ∪ new)
    (hsame : (c'.augmented, c'.cgroup, c'.cgroupRoot) = (c.augmented, c.cgroup, c.cgroupRoot))
    (hvalue : ∀ f : Field, f.bit ∉ missing → c'.value lastCap f = c.value lastCap f) :
    Keeps lastCap missing c c' := by
  obtain ⟨ha, hc, hr⟩ : _ ∧ _ ∧ _ := by simpa only [Prod.mk.injEq] using hsame
  constructor
  · rw [hmask]
    exact Finset.subset_union_left
  · rw [hmask]
    exact Finset.union_subset_union_right hnew
  · exact ha
  · exact hc
  · exact fun r hroot => hr.trans hroot
  · exact fun f hf _ => hvalue f hf

def KeepsAll (lastCap : Nat) (missing : Mask) (g : SdBusCreds → Except ProcErrno SdBusCreds) :
    Prop :=
  ∀ c c', g c = .ok c' → Keeps lastCap missing c c'

theorem KeepsAll.bind {g h : SdBusCreds → Except ProcErrno SdBusCreds}
    (hg : KeepsAll lastCap missing g) (hh : KeepsAll lastCap missing h) :
    KeepsAll lastCap missing fun c => g c >>= h := by
  intro c c' hc
  change (g c >>= h) = .ok c' at hc
  obtain ⟨d, hd, hlast⟩ := ok_of_bind hc
  exact (hg c d hd).trans (hh d c' hlast)

theorem storeWords_other (base : Nat) : ∀ (k : Nat) {ws ws' : Words} {p : Str},
    storeWords base k ws p = .ok ws' → ∀ i, i < base ∨ base + k ≤ i → ws'[i]? = ws[i]? := by
  intro k
  induction k with
  | zero =>
    intro ws ws' p h i _
    rw [storeWords] at h
    rw [Except.ok.inj h]
  | succ k ih =>
    intro ws ws' p h i hi
    rw [storeWords] at h
    split at h
    · cases h
    · split at h
      · rw [ih h i (by omega), List.getElem?_set_ne (by omega)]
      · cases h

theorem parseCaps_other {cap : Option Words} {set : CapSet} {text : Str} {ws : Words}
    (h : parseCaps lastCap cap set text = .ok ws) {set' : CapSet} (hset : set' ≠ set) {k : Nat}
    (hk : k < divRoundUp lastCap 32) :
    ws[set'.offset * divRoundUp lastCap 32 + k]? =
      (cap.getD (List.replicate (divRoundUp lastCap 32 * 4) 0))[
        set'.offset * divRoundUp lastCap 32 + k]? := by
  rw [parseCaps] at h
  split at h
  · cases h
  · split at h
    · cases h
    · rename_i hlen
      refine storeWords_other _ _ h _ ?_
      cases set <;> cases set' <;> simp only [CapSet.offset] <;>
        first | omega | exact absurd rfl hset

theorem capWords_parseCaps {c : SdBusCreds} {set : CapSet} {text : Str} {ws : Words}
    (h : parseCaps lastCap c.capability set text = .ok ws) {set' : CapSet} (hset : set' ≠ set) :
    { c with capability := some ws }.capWords lastCap set' = c.capWords lastCap set' := by
  refine List.map_congr_left fun k hk => ?_
  exact parseCaps_other h hset (List.mem_range.mp hk)

theorem maskOf_subset {f : Field} (h : f.bit ∈ missing) : maskOf [f] ⊆ missing := by
  intro b hb
  rw [List.mem_singleton.mp (List.mem_toFinset.mp hb)]
  exact h

theorem statusLine_keeps (line : StatusLine) :
    KeepsAll lastCap missing fun c => statusLine lastCap missing c line := by
  intro c c' h
  cases line with
  | ppid r =>
    simp only [statusLine] at h
    split at h
    · rename_i hf
      cases r with
      | error e => exact absurd h nofun
      | ok ppid =>
        obtain rfl := Except.ok.inj h
        refine .of_store (maskOf_subset hf) rfl rfl fun f hg => ?_
        cases f <;> first | rfl | exact absurd hf hg
    · exact Except.ok.inj h ▸ Keeps.refl c
  | uid r =>
    simp only [statusLine] at h
    split at h
    · cases r with
      | none => exact absurd h nofun
      | some ids =>
        obtain rfl := Except.ok.inj h
        refine .of_store Finset.inter_subset_left rfl rfl fun f hg => ?_
        cases f <;> first | rfl | simp only [SdBusCreds.value, if_neg hg]
    · exact Except.ok.inj h ▸ Keeps.refl c
  | gid r =>
    simp only [statusLine] at h
    split at h
    · cases r with
      | none => exact absurd h nofun
      | some ids =>
        obtain rfl := Except.ok.inj h
        refine .of_store Finset.inter_subset_left rfl rfl fun f hg => ?_
        cases f <;> first | rfl | simp only [SdBusCreds.value, if_neg hg]
    · exact Except.ok.inj h ▸ Keeps.refl c
  | groups r =>
    simp only [statusLine] at h
    split at h
    · rename_i hf
      cases r with
      | none => exact absurd h nofun
      | some gids =>
        obtain rfl := Except.ok.inj h
        refine .of_store (maskOf_subset hf) rfl rfl fun f hg => ?_
        cases f <;> first | rfl | exact absurd hf hg
    · exact Except.ok.inj h ▸ Keeps.refl c
  | caps set text =>
    simp only [statusLine] at h
    split at h
    · rename_i hf
      split at h
      · exact absurd h nofun
      · exact absurd h nofun
      · rename_i ws hws
        obtain rfl := Except.ok.inj h
        refine .of_store (maskOf_subset hf) rfl rfl fun f hg => ?_
        have hwords : ∀ set' : CapSet, set'.field.bit ∉ missing →
            { c with capability := some ws }.capWords lastCap set' = c.capWords lastCap set' :=
          fun set' hset' => capWords_parseCaps hws fun heq => hset' (heq ▸ hf)
        cases f with
        | effectiveCaps => exact congrArg Value.words (hwords .effective hg)
        | permittedCaps => exact congrArg Value.words (hwords .permitted hg)
        | inheritableCaps => exact congrArg Value.words (hwords .inheritable hg)
        | boundingCaps => exact congrArg Value.words (hwords .bounding hg)
        | _ => rfl
    · exact Except.ok.inj h ▸ Keeps.refl c
  | unknown => exact Except.ok.inj h ▸ Keeps.refl c

theorem readLines_keeps : ∀ lines : List StatusLine,
    KeepsAll lastCap missing fun c => readLines lastCap missing c lines
  | [], c, c', h => Except.ok.inj h ▸ Keeps.refl c
  | line :: lines, c, c', h => by
    simp only [readLines] at h
    split at h
    · exact absurd h nofun
    · rename_i d hd
      exact (statusLine_keeps line c d hd).trans (readLines_keeps lines d c' h)

theorem readStatus_keeps (proc : Proc) :
    KeepsAll lastCap missing (readStatus lastCap missing proc) := by
  intro c c' h
  rw [readStatus] at h
  split at h
  · exact Except.ok.inj h ▸ Keeps.refl c
  · split at h
    · exact absurd h nofun
    · exact Except.ok.inj h ▸ Keeps.refl c
    · exact Except.ok.inj h ▸ Keeps.refl c
    · exact absurd h nofun
    · rename_i lines _
      split at h
      · exact absurd h nofun
      · rename_i d hd
        split at h
        · exact absurd h nofun
        · exact Except.ok.inj h ▸ readLines_keeps lines c d hd

theorem addMember_keeps {α : Type} {field : Field} {unknown : List ProcErrno}
    {read : Except ProcErrno α} {store : SdBusCreds → α → SdBusCreds}
    (hsame : ∀ c a, ((store c a).augmented, (store c a).cgroup, (store c a).cgroupRoot) =
      (c.augmented, c.cgroup, c.cgroupRoot))
    (hvalue : ∀ c a f, f ≠ field → (store c a).value lastCap f = c.value lastCap f) :
    KeepsAll lastCap missing (addMember missing field unknown read store) := by
  intro c c' h
  unfold addMember at h
  split at h
  · rename_i hf
    split at h
    · split at h
      · exact Except.ok.inj h ▸ Keeps.refl c
      · exact absurd h nofun
    · rename_i a
      obtain rfl := Except.ok.inj h
      exact .of_store (maskOf_subset hf) rfl (hsame c a) fun f hg =>
        hvalue c a f fun heq => hg (heq ▸ hf)
  · exact Except.ok.inj h ▸ Keeps.refl c

theorem addTidComm_keeps (tid : Int) (proc : Proc) :
    KeepsAll lastCap missing (addTidComm missing tid proc) := by
  intro c c' h
  rw [addTidComm] at h
  split at h
  · refine addMember_keeps ?_ ?_ c c' h
    · exact fun _ _ => rfl
    · exact fun _ _ f hf => by cases f <;> first | rfl | exact absurd rfl hf
  · exact Except.ok.inj h ▸ Keeps.refl c

theorem addCgroup_keeps (c : SdBusCreds) : Keeps lastCap missing c (addCgroup missing c) := by
  rw [addCgroup]
  split
  · exact Keeps.refl c
  · refine ⟨?_, ?_, rfl, rfl, fun r hr => congrArg (fun o => some (o.getD [charSlash])) hr,
      fun f _ hf => ?_⟩
    · dsimp only
      split
      · exact Finset.subset_union_left
      · exact subset_rfl
    · dsimp only
      split
      · exact Finset.union_subset_union_right Finset.inter_subset_left
      · exact Finset.subset_union_left
    · cases f <;> first | rfl | exact absurd (by decide) hf

theorem readSession_keeps (proc : Proc) : KeepsAll lastCap missing (readSession missing proc) := by
  refine .bind ?_ (.bind ?_ ?_)
  all_goals refine addMember_keeps (fun _ _ => rfl) fun _ _ f hf => ?_
  · cases f <;> first | rfl | exact absurd rfl hf
  · cases f <;> first | rfl | exact absurd rfl hf
  · cases f <;> first | rfl | exact absurd rfl hf

theorem readMembers_keeps (tid : Int) (proc : Proc) :
    KeepsAll lastCap missing (readMembers lastCap missing tid proc) := by
  have hlast : KeepsAll lastCap missing fun c => readSession missing proc (addCgroup missing c) :=
    fun c c' h => (addCgroup_keeps c).trans (readSession_keeps proc _ c' h)
  refine .bind (readStatus_keeps proc)
    (.bind ?_ (.bind ?_ (.bind ?_ (.bind ?_ (.bind (addTidComm_keeps tid proc) hlast)))))
  all_goals refine addMember_keeps (fun _ _ => rfl) fun _ _ f hf => ?_
  · cases f <;> first | rfl | exact absurd rfl hf
  · cases f <;> first | rfl | exact absurd rfl hf
  · cases f <;> first | rfl | exact absurd rfl hf
  · cases f <;> first | rfl | exact absurd rfl hf

end

def missingFrom (copied mask : Mask) : Mask := mask \ (copied ∪ untouchedFields)

theorem addFrom_ok {lastCap : Nat} {c r : SdBusCreds} {mask : Mask} {pid : Int} {proc : Proc}
    (h : addFrom lastCap c mask pid 0 proc = .ok r) :
    missingFrom c.mask mask = ∅ ∧ r = c ∨
      missingFrom c.mask mask ≠ ∅ ∧
        ∃ c', Keeps lastCap (missingFrom c.mask mask) c c' ∧
          r = { c' with augmented := missingFrom c.mask mask ∩ c'.mask } := by
  simp only [addFrom, le_refl, true_and] at h
  split at h
  · rename_i hnone
    exact .inl ⟨hnone, (Except.ok.inj h).symm⟩
  · rename_i hmissing
    generalize hthread : (if Field.tid.bit ∈ c.mask then c.tid else 0) = tid at h
    -- the thread is that of the object, if it has one
    have htid :
        (if 0 < tid then { c with tid := tid, mask := c.mask ∪ maskOf [.tid] } else c) = c := by
      by_cases hin : Field.tid.bit ∈ c.mask
      · rw [← hthread, if_pos hin, Finset.union_eq_left.mpr (maskOf_subset hin), ite_self]
      · rw [← hthread, if_neg hin, if_neg (lt_irrefl _)]
    rw [htid] at h
    split at h
    · exact absurd h nofun
    · rename_i c' hc'
      split at h
      · exact absurd h nofun
      · split at h
        · exact absurd h nofun
        · exact .inr ⟨hmissing, c', readMembers_keeps _ proc c c' hc', (Except.ok.inj h).symm⟩

theorem bit_mem (f : Field) : f.bit ∈ copiedFields ∨ f.bit ∈ cgroupFields := by
  cases f <;> decide

theorem mem_copiedMask_of_held {held mask : Mask} (hsub : held ⊆ mask) {f : Field}
    (hf : f.bit ∈ held) : f.bit ∈ copiedMask held mask := by
  rw [copiedMask, Finset.mem_union, Finset.mem_inter]
  cases bit_mem f with
  | inl h => exact .inl ⟨hf, h⟩
  | inr h =>
    rw [if_neg (Finset.ne_empty_of_mem (Finset.mem_inter.mpr ⟨hf, h⟩))]
    exact .inr (Finset.mem_inter.mpr ⟨hsub hf, h⟩)

theorem copiedMask_subset (c : SdBusCreds) (mask : Mask) :
    copiedMask (c.mask ∩ mask) mask ⊆ mask := by
  refine Finset.union_subset (Finset.inter_subset_left.trans Finset.inter_subset_right) ?_
  split
  · exact Finset.empty_subset _
  · exact Finset.inter_subset_left

theorem copyOver_value (lastCap : Nat) (c : SdBusCreds) {held : Mask} (mask : Mask) {f : Field}
    (hf : f.bit ∈ held) : (copyOver c held mask).value lastCap f = c.value lastCap f := by
  have hgroup : f.bit ∈ cgroupFields → held ∩ cgroupFields ≠ ∅ :=
    fun h => Finset.ne_empty_of_mem (Finset.mem_inter.mpr ⟨hf, h⟩)
  have hcap : f.bit ∈ capFields → held ∩ capFields ≠ ∅ :=
    fun h => Finset.ne_empty_of_mem (Finset.mem_inter.mpr ⟨hf, h⟩)
  cases f with
  | cgroup | unit | slice | userUnit | userSlice | session | ownerUid =>
    simp only [SdBusCreds.value, copyOver, if_neg (hgroup (by decide))]
  | effectiveCaps | permittedCaps | inheritableCaps | boundingCaps =>
    simp only [SdBusCreds.value, SdBusCreds.capWords, copyOver, if_neg (hcap (by decide))]
  | _ => simp only [SdBusCreds.value, copyOver, if_pos hf]

/-- What the object holds of the mask is held as it was, and what else is held is marked, unless it
stands in the object. -/
structure Marked (lastCap : Nat) (c : SdBusCreds) (mask : Mask) (r : SdBusCreds) : Prop where
  held : ∀ f : Field, f.bit ∈ c.mask → f.bit ∈ mask ∨ f.bit ∈ r.mask →
    f.bit ∈ r.mask ∧ r.value lastCap f = c.value lastCap f ∧
      (f.bit ∈ r.augmented ↔ f.bit ∈ c.augmented)
  added : ∀ f : Field, f.bit ∈ r.mask → f.bit ∉ c.mask → f.bit ∈ r.augmented

def Reads (copied mask : Mask) : Prop :=
  Field.pid.bit ∈ copied ∧ missingFrom copied mask ≠ ∅

instance (copied mask : Mask) : Decidable (Reads copied mask) :=
  inferInstanceAs (Decidable (_ ∧ _))

def KeepsMarks (c : SdBusCreds) (mask : Mask) : Prop :=
  mask ⊆ c.mask ∨ augmentBit ∉ mask ∨
    ∀ f : Field, f.bit ∈ copiedMask (c.mask ∩ mask) mask →
      if Reads (copiedMask (c.mask ∩ mask) mask) mask then f.bit ∈ c.mask ∧ f.bit ∉ c.augmented
      else f.bit ∈ c.mask ∨ f.bit ∈ c.augmented

section
variable {lastCap : Nat} {c r : SdBusCreds} {mask : Mask}

theorem busCredsExtendByPid_ok {proc : Proc} (h : busCredsExtendByPid lastCap c mask proc = .ok r) :
    (mask ⊆ c.mask ∨ augmentBit ∉ mask) ∧ r = c ∨
      ¬(mask ⊆ c.mask ∨ augmentBit ∉ mask) ∧ copyAsserts c (c.mask ∩ mask) ∧
        (¬Reads (copiedMask (c.mask ∩ mask) mask) mask ∧ r = copyOver c (c.mask ∩ mask) mask ∨
          Reads (copiedMask (c.mask ∩ mask) mask) mask ∧
            ∃ c', Keeps lastCap (missingFrom (copiedMask (c.mask ∩ mask) mask) mask)
                (copyOver c (c.mask ∩ mask) mask) c' ∧
              r = { c' with
                augmented := missingFrom (copiedMask (c.mask ∩ mask) mask) mask ∩ c'.mask }) := by
  simp only [busCredsExtendByPid, Finset.sdiff_eq_empty_iff_subset] at h
  split at h
  · rename_i hself
    exact .inl ⟨hself, (Except.ok.inj h).symm⟩
  · rename_i hself
    split at h
    · rename_i hasserts
      refine .inr ⟨hself, hasserts, ?_⟩
      have hauto : augmentBit ∈ mask := not_not.mp fun hn => hself (.inr hn)
      rw [busCredsAddMore, if_neg (not_not.mpr hauto), if_neg (lt_irrefl _)] at h
      split at h
      · rename_i hpid
        obtain ⟨hnone, hr⟩ | ⟨hmissing, hr⟩ := addFrom_ok h
        · exact .inl ⟨fun hreads => hreads.2 hnone, hr⟩
        · exact .inr ⟨⟨hpid, hmissing⟩, hr⟩
      · rename_i hpid
        exact .inl ⟨fun hreads => hpid hreads.1, (Except.ok.inj h).symm⟩
    · exact absurd h nofun

theorem copied_of_held {f : Field} (hc : f.bit ∈ c.mask)
    (hm : f.bit ∈ mask) : f.bit ∈ copiedMask (c.mask ∩ mask) mask :=
  mem_copiedMask_of_held Finset.inter_subset_right (Finset.mem_inter.mpr ⟨hc, hm⟩)

theorem marked_copy_iff :
    Marked lastCap c mask (copyOver c (c.mask ∩ mask) mask) ↔
      ∀ f : Field, f.bit ∈ copiedMask (c.mask ∩ mask) mask →
        f.bit ∈ c.mask ∨ f.bit ∈ c.augmented := by
  have hmark : ∀ f : Field, f.bit ∈ copiedMask (c.mask ∩ mask) mask →
      (f.bit ∈ (copyOver c (c.mask ∩ mask) mask).augmented ↔ f.bit ∈ c.augmented) :=
    fun f hf => Finset.mem_inter.trans (and_iff_left hf)
  constructor
  · intro h f hf
    by_cases hc : f.bit ∈ c.mask
    · exact .inl hc
    · exact .inr ((hmark f hf).mp (h.added f hf hc))
  · intro h
    refine ⟨fun f hc hm => ?_, fun f hf hc => (hmark f hf).mpr ((h f hf).resolve_left hc)⟩
    have hmask : f.bit ∈ mask := hm.elim id fun h => copiedMask_subset c mask h
    have hf := copied_of_held hc hmask
    exact ⟨hf, copyOver_value lastCap c mask (Finset.mem_inter.mpr ⟨hc, hmask⟩), hmark f hf⟩

theorem Keeps.copied_value {missing : Mask} {c' : SdBusCreds}
    (hasserts : copyAsserts c (c.mask ∩ mask))
    (h : Keeps lastCap missing (copyOver c (c.mask ∩ mask) mask) c') {f : Field}
    (hc : f.bit ∈ c.mask) (hm : f.bit ∈ mask) (hf : f.bit ∉ missing) :
    c'.value lastCap f = c.value lastCap f := by
  have hin : f.bit ∈ c.mask ∩ mask := Finset.mem_inter.mpr ⟨hc, hm⟩
  rw [← copyOver_value lastCap c mask hin]
  by_cases hgroup : f.bit ∈ cgroupFields
  · have hne : c.mask ∩ mask ∩ cgroupFields ≠ ∅ :=
      Finset.ne_empty_of_mem (Finset.mem_inter.mpr ⟨hin, hgroup⟩)
    obtain ⟨root, hroot⟩ := Option.isSome_iff_exists.mp (hasserts.2.2.1 hne).2
    have hcopy : (copyOver c (c.mask ∩ mask) mask).cgroupRoot = some root :=
      (if_neg hne).trans hroot
    have hsame : Value.group c'.cgroup c'.cgroupRoot =
        .group (copyOver c (c.mask ∩ mask) mask).cgroup
          (copyOver c (c.mask ∩ mask) mask).cgroupRoot := by
      rw [h.cgroup, h.root root hcopy, hcopy]
    cases f with
    | cgroup | unit | slice | userUnit | userSlice | session | ownerUid => exact hsame
    | _ => exact absurd hgroup (by decide)
  · exact h.value f hf hgroup

theorem marked_read_iff {c' : SdBusCreds} (hasserts : copyAsserts c (c.mask ∩ mask))
    (h : Keeps lastCap (missingFrom (copiedMask (c.mask ∩ mask) mask) mask)
      (copyOver c (c.mask ∩ mask) mask) c') :
    Marked lastCap c mask
        { c' with augmented := missingFrom (copiedMask (c.mask ∩ mask) mask) mask ∩ c'.mask } ↔
      ∀ f : Field, f.bit ∈ copiedMask (c.mask ∩ mask) mask →
        f.bit ∈ c.mask ∧ f.bit ∉ c.augmented := by
  have hnot : ∀ f : Field, f.bit ∈ copiedMask (c.mask ∩ mask) mask →
      f.bit ∉ missingFrom (copiedMask (c.mask ∩ mask) mask) mask :=
    fun f hf hm => (Finset.mem_sdiff.mp hm).2 (Finset.mem_union_left _ hf)
  have hunmarked : ∀ f : Field, f.bit ∈ copiedMask (c.mask ∩ mask) mask →
      f.bit ∉ missingFrom (copiedMask (c.mask ∩ mask) mask) mask ∩ c'.mask :=
    fun f hf hm => hnot f hf (Finset.mem_inter.mp hm).1
  constructor
  · intro hmarked f hf
    have hin : f.bit ∈ c.mask :=
      not_not.mp fun hc => hunmarked f hf (hmarked.added f (h.held hf) hc)
    obtain ⟨-, -, hiff⟩ := hmarked.held f hin (.inl (copiedMask_subset c mask hf))
    exact ⟨hin, fun ha => hunmarked f hf (hiff.mpr ha)⟩
  · intro hall
    refine ⟨fun f hc hm => ?_, fun f hf hc => ?_⟩
    · have hmask : f.bit ∈ mask := by
        refine hm.elim id fun hr => ?_
        exact (Finset.mem_union.mp (h.added hr)).elim (fun hf => copiedMask_subset c mask hf)
          fun hf => (Finset.mem_sdiff.mp hf).1
      have hf := copied_of_held hc hmask
      exact ⟨h.held hf, h.copied_value hasserts hc hmask (hnot f hf),
        iff_of_false (hunmarked f hf) (hall f hf).2⟩
    · refine (Finset.mem_union.mp (h.added hf)).elim (fun hcopied => ?_) fun hm => ?_
      · exact absurd (hall f hcopied).1 hc
      · exact Finset.mem_inter.mpr ⟨hm, hf⟩

theorem marked_iff {proc : Proc} (h : busCredsExtendByPid lastCap c mask proc = .ok r) :
    Marked lastCap c mask r ↔ KeepsMarks c mask := by
  obtain ⟨hself, rfl⟩ | ⟨hself, hasserts, hmore⟩ := busCredsExtendByPid_ok h
  · have hmarked : Marked lastCap r mask r :=
      ⟨fun f hc _ => ⟨hc, rfl, Iff.rfl⟩, fun f hf hc => absurd hf hc⟩
    exact iff_of_true hmarked (hself.imp_right .inl)
  · rw [KeepsMarks, ← or_assoc, or_iff_right hself]
    obtain ⟨hreads, rfl⟩ | ⟨hreads, c', hkeeps, rfl⟩ := hmore
    · simp only [if_neg hreads]
      exact marked_copy_iff
    · simp only [if_pos hreads]
      exact marked_read_iff hasserts hkeeps

inductive Extends (lastCap : Nat) : SdBusCreds → SdBusCreds → Prop
  | refl (c : SdBusCreds) : Extends lastCap c c
  | step {c d r : SdBusCreds} {mask : Mask} {proc : Proc} (chain : Extends lastCap c d)
      (h : busCredsExtendByPid lastCap d mask proc = .ok r) (keeps : KeepsMarks d mask) :
      Extends lastCap c r

def Trusted (lastCap : Nat) (c r : SdBusCreds) : Prop :=
  ∀ f : Field, f.bit ∈ r.mask → f.bit ∉ r.augmented →
    f.bit ∈ c.mask ∧ f.bit ∉ c.augmented ∧ r.value lastCap f = c.value lastCap f

theorem Marked.trusted (h : Marked lastCap c mask r) : Trusted lastCap c r := by
  intro f hf ha
  have hc : f.bit ∈ c.mask := not_not.mp fun hc => ha (h.added f hf hc)
  obtain ⟨-, hvalue, hiff⟩ := h.held f hc (.inr hf)
  exact ⟨hc, fun hac => ha (hiff.mpr hac), hvalue⟩

theorem Trusted.trans {d : SdBusCreds} (h : Trusted lastCap c d) (h' : Trusted lastCap d r) :
    Trusted lastCap c r := by
  intro f hf ha
  obtain ⟨hd, had, hvalue⟩ := h' f hf ha
  obtain ⟨hc, hac, hvalue'⟩ := h f hd had
  exact ⟨hc, hac, hvalue.trans hvalue'⟩

theorem Extends.trusted (h : Extends lastCap c r) : Trusted lastCap c r := by
  induction h with
  | refl => exact fun f hf ha => ⟨hf, ha, rfl⟩
  | step _ h keeps ih => exact ih.trans ((marked_iff h).mpr keeps).trusted

end

/-- The marks stay exactly where nothing that is marked is copied while more is read, and along
chains of such extensions nothing unmarked comes in. -/
theorem stayMarked_iff (lastCap : Nat) :
    (∀ (c r : SdBusCreds) (mask : Mask) (proc : Proc),
      busCredsExtendByPid lastCap c mask proc = .ok r →
        (Marked lastCap c mask r ↔ KeepsMarks c mask)) ∧
      ∀ c r : SdBusCreds, Extends lastCap c r → Trusted lastCap c r :=
  ⟨fun _ _ _ _ h => marked_iff h, fun _ _ h => h.trusted⟩

def rootProc : Proc where
  status := .ok [.uid (some (0, 0, 0, 0))]
  statusFailure := none
  label := .error .enoent
  comm := .ok [115, 104]
  exe := .error .eacces
  cmdline := .error .eacces
  tidComm := .error .eacces
  auditSession := .error .enodata
  auditLoginUid := .error .enodata
  tty := .error .enxio
  alive := true
  unwaited := true

def pidCreds : SdBusCreds := { busCredsNew with mask := maskOf [.pid], pid := 7 }

def uidCreds : SdBusCreds :=
  { busCredsNew with mask := maskOf [.pid, .uid], augmented := maskOf [.uid], pid := 7 }

theorem extend_pidCreds :
    busCredsExtendByPid 40 pidCreds (maskOf [.pid, .uid] ∪ {augmentBit}) rootProc =
      .ok uidCreds := by
  decide +kernel

theorem stayMarked_iff_uid :
    Marked 40 pidCreds (maskOf [.pid, .uid] ∪ {augmentBit}) uidCreds ∧
      Trusted 40 pidCreds uidCreds := by
  have keeps : KeepsMarks pidCreds (maskOf [.pid, .uid] ∪ {augmentBit}) := by
    refine .inr (.inr fun f => ?_)
    cases f <;> decide
  exact ⟨((stayMarked_iff 40).1 _ _ _ _ extend_pidCreds).mpr keeps,
    (stayMarked_iff 40).2 _ _ (.step (.refl _) extend_pidCreds keeps)⟩

/-- Asking for one field more takes the mark from the user that was read. -/
theorem not_stayMarked :
    ∃ r₁ r₂,
      busCredsExtendByPid 40 pidCreds (maskOf [.pid, .uid] ∪ {augmentBit}) rootProc = .ok r₁ ∧
      busCredsExtendByPid 40 r₁ (maskOf [.pid, .uid, .comm] ∪ {augmentBit}) rootProc = .ok r₂ ∧
      ¬Marked 40 r₁ (maskOf [.pid, .uid, .comm] ∪ {augmentBit}) r₂ ∧ ¬Trusted 40 pidCreds r₂ := by
  refine ⟨uidCreds, { busCredsNew with
      mask := maskOf [.pid, .uid, .comm], augmented := maskOf [.comm], pid := 7,
      comm := some [115, 104] }, extend_pidCreds, by decide +kernel, fun h => ?_, fun h => ?_⟩
  · exact absurd ((h.held .uid (by decide) (.inl (by decide))).2.2.mpr (by decide)) (by decide)
  · exact absurd (h .uid (by decide) (by decide)).1 (by decide)

end Basu.Creds
