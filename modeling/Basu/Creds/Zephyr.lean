import Basu.Creds.Object
import Basu.Socket.Auth

/-! Credentials where there is no `/proc` (`sys_fun.c`): what is stored in an object, what its getters
answer, and the privilege of a sender (`bus-control.c`, `bus-convenience.c`). -/

namespace Basu.Zephyr
open Lib Creds

/-- The members of `struct sd_bus_creds` that something is stored in, or that a getter reads; nothing
stands where the memory is still that of `memset`. -/
structure SdBusCreds where
  mask : Mask
  augmented : Mask
  uid : Option Nat
  euid : Option Nat
  egid : Option Nat
  supplementaryGids : Option (List Nat)
  pid : Option Int
  capability : Option Words
  label : Option Str
  uniqueName : Option Str
  deriving DecidableEq

def SdBusCreds.stored (c : SdBusCreds) : Field → Bool
  | .uid => c.uid.isSome
  | .euid => c.euid.isSome
  | .egid => c.egid.isSome
  | .supplementaryGids => c.supplementaryGids.isSome
  | .pid => c.pid.isSome
  | .effectiveCaps | .permittedCaps | .inheritableCaps | .boundingCaps => c.capability.isSome
  | .selinuxContext => c.label.isSome
  | .uniqueName => c.uniqueName.isSome
  | _ => false

def busCredsNew : SdBusCreds where
  mask := ∅
  augmented := ∅
  uid := none
  euid := none
  egid := none
  supplementaryGids := none
  pid := none
  capability := none
  label := none
  uniqueName := none

def busCredsAddMore (c : SdBusCreds) (mask : Mask) : SdBusCreds := { c with mask := c.mask ∪ mask }

def busCredsExtendByPid (_c : SdBusCreds) (mask : Mask) : SdBusCreds :=
  { busCredsNew with mask := mask }

inductive Errno
  | einval | eperm | echild | enotconn | eopnotsupp | enodata | eproto
  /-- The error of a call or of reading its reply. -/
  | reply (n : Nat)
  deriving DecidableEq

inductive Getter
  | euid
  | uid
  | effectiveCap (capability : Int)
  | pid | comm | uniqueName | description | ownerUid | cmdline | unit | userUnit | slice
  | userSlice | session | auditLoginUid | auditSessionId | wellKnownNames
  deriving DecidableEq

def Getter.field : Getter → Field
  | .euid => .euid
  | .uid => .uid
  | .effectiveCap _ => .effectiveCaps
  | .pid => .pid
  | .comm => .comm
  | .uniqueName => .uniqueName
  | .description => .description
  | .ownerUid => .ownerUid
  | .cmdline => .cmdline
  | .unit => .unit
  | .userUnit => .userUnit
  | .slice => .slice
  | .userSlice => .userSlice
  | .session => .session
  | .auditLoginUid => .auditLoginUid
  | .auditSessionId => .auditSessionId
  | .wellKnownNames => .wellKnownNames

def sdBusCredsGetEuid (c : SdBusCreds) : Except Errno Nat := .ok (c.euid.getD 0)

def sdBusCredsGetUid (c : SdBusCreds) : Except Errno Nat := .ok (c.uid.getD 0)

def sdBusCredsHasEffectiveCap (_c : SdBusCreds) (_capability : Int) : Except Errno Nat := .ok 0

def stubGetter (_c : SdBusCreds) : Except Errno Nat := .error .enodata

def Getter.run : Getter → SdBusCreds → Except Errno Nat
  | .euid, c => sdBusCredsGetEuid c
  | .uid, c => sdBusCredsGetUid c
  | .effectiveCap capability, c => sdBusCredsHasEffectiveCap c capability
  | _, c => stubGetter c

/-! ## `sd_bus_get_owner_creds` -/

structure Bus where
  pidChanged : Bool
  isOpen : Bool
  isLocal : Bool
  busClient : Bool
  ucredValid : Bool
  ucredPid : Int
  ucredUid : Nat
  ucredGid : Nat
  label : Option Str
  /-- Nothing for a number of groups that is `(size_t) -1`. -/
  groups : Option (List Nat)

def maskIsKnown (mask : Mask) : Prop := ∀ b ∈ mask \ {augmentBit}, b.val < 34

instance (mask : Mask) : Decidable (maskIsKnown mask) :=
  inferInstanceAs (Decidable (∀ b ∈ _, _))

def Bus.localMask (bus : Bus) (mask : Mask) : Mask :=
  if bus.isLocal then mask else mask \ {augmentBit}

def Bus.ucredCreds (bus : Bus) (mask : Mask) (c : SdBusCreds) : SdBusCreds :=
  if bus.ucredValid then
    let c := if 0 < bus.ucredPid then
        { c with pid := some bus.ucredPid, mask := c.mask ∪ (maskOf [.pid] ∩ mask) } else c
    let c := if uidIsValid bus.ucredUid then
        { c with euid := some bus.ucredUid, mask := c.mask ∪ (maskOf [.euid] ∩ mask) } else c
    if uidIsValid bus.ucredGid then
      { c with egid := some bus.ucredGid, mask := c.mask ∪ (maskOf [.egid] ∩ mask) } else c
  else c

def sdBusGetOwnerCreds (bus : Bus) (mask : Mask) : Except Errno SdBusCreds :=
  if ¬maskIsKnown mask then .error .eopnotsupp
  else if bus.pidChanged then .error .echild
  else if !bus.isOpen then .error .enotconn
  else
    let mask := bus.localMask mask
    let doLabel := bus.label.isSome ∧ Field.selinuxContext.bit ∈ mask
    let doGroups := bus.groups.isSome ∧ Field.supplementaryGids.bit ∈ mask
    if bus.ucredValid = false ∧ ¬doLabel ∧ ¬doGroups then .error .enodata
    else
      let c := bus.ucredCreds mask busCredsNew
      let c := if doLabel then
          { c with label := bus.label, mask := c.mask ∪ maskOf [.selinuxContext] } else c
      let c := if doGroups then
          { c with supplementaryGids := bus.groups, mask := c.mask ∪ maskOf [.supplementaryGids] }
        else c
      .ok (busCredsAddMore c mask)

/-! ## `sd_bus_get_name_creds` -/

/-- An entry of the reply to `GetConnectionCredentials`: its key, and what reading its value in each
of the ways and leaving it gives. -/
structure Entry where
  name : Str
  number : Except Errno Nat
  bytes : Except Errno Str
  skip : Except Errno Unit

structure Driver where
  nameOwner : Except Errno Str
  /-- No error for a method that the driver does not know; otherwise the entries, and the error that
  stands behind them. -/
  credentials : Except (Option Errno) (List Entry × Option Errno)
  unixProcessId : Except Errno Nat
  unixUser : Except Errno Nat
  /-- No error where the driver does not know a context. -/
  securityContext : Except (Option Errno) Str

def pidFields : Mask :=
  maskOf [.uid, .suid, .fsuid, .gid, .egid, .sgid, .fsgid, .supplementaryGids, .comm, .exe,
    .cmdline, .cgroup, .unit, .userUnit, .slice, .session, .ownerUid, .effectiveCaps,
    .permittedCaps, .inheritableCaps, .boundingCaps, .selinuxContext, .auditSessionId,
    .auditLoginUid]

def needPid (mask : Mask) : Bool :=
  Field.pid.bit ∈ mask || (augmentBit ∈ mask && mask ∩ pidFields ≠ ∅)

def needUid (mask : Mask) : Bool := Field.euid.bit ∈ mask

def needSelinux (mask : Mask) : Bool := Field.selinuxContext.bit ∈ mask

def asksAtOnce (mask : Mask) : Bool :=
  1 < (needPid mask).toNat + (needUid mask).toNat + (needSelinux mask).toNat

def storePid (mask : Mask) (c : SdBusCreds) (p : Nat) : SdBusCreds :=
  if Field.pid.bit ∈ mask then
    { c with pid := some (BitVec.ofNat 32 p).toInt, mask := c.mask ∪ maskOf [.pid] }
  else c

def storeEuid (c : SdBusCreds) (u : Nat) : SdBusCreds :=
  { c with euid := some u, mask := c.mask ∪ maskOf [.euid] }

def storeLabel (c : SdBusCreds) (p : Str) : SdBusCreds :=
  { c with label := some (p.takeWhile (· ≠ 0)), mask := c.mask ∪ maskOf [.selinuxContext] }

def readEntry (mask : Mask) (s : SdBusCreds × Nat) (e : Entry) : Except Errno (SdBusCreds × Nat) :=
  if needUid mask ∧ e.name = str "UnixUserID" then
    e.number.map fun u => (storeEuid s.1 u, s.2)
  else if needPid mask ∧ e.name = str "ProcessID" then
    e.number.map fun p => (storePid mask s.1 p, p)
  else if needSelinux mask ∧ e.name = str "LinuxSecurityLabel" then
    e.bytes.map fun p => (storeLabel s.1 p, s.2)
  else e.skip.map fun _ => s

def readEntries (mask : Mask) : SdBusCreds × Nat → List Entry → Except Errno (SdBusCreds × Nat)
  | s, [] => .ok s
  | s, e :: es =>
    match readEntry mask s e with
    | .error err => .error err
    | .ok s => readEntries mask s es

def separateCalls (mask : Mask) (driver : Driver) (c : SdBusCreds) : Except Errno SdBusCreds := do
  let c ← (if needPid mask then driver.unixProcessId.map (storePid mask c) else .ok c)
  let c ← (if needUid mask then driver.unixUser.map (storeEuid c) else .ok c)
  if needSelinux mask then
    match driver.securityContext with
    | .error (some e) => .error e
    | .error none => .ok c
    | .ok p => .ok (storeLabel c p)
  else .ok c

def askDriver (mask : Mask) (driver : Driver) (c : SdBusCreds) : Except Errno SdBusCreds :=
  if asksAtOnce mask then
    match driver.credentials with
    | .error (some e) => .error e
    | .error none => separateCalls mask driver c
    | .ok (entries, failure) =>
      match readEntries mask (c, 0) entries with
      | .error e => .error e
      | .ok (c, pid) =>
        match failure with
        | some e => .error e
        | none => if needPid mask ∧ pid = 0 then .error .eproto else .ok c
  else separateCalls mask driver c

def sdBusGetNameCreds (bus : Bus) (driver : Driver) (name : Str) (mask : Mask) :
    Except Errno (Option SdBusCreds) :=
  if ¬maskIsKnown mask then .error .eopnotsupp
  else if bus.pidChanged then .error .echild
  else if !serviceNameIsValid name then .error .einval
  else if !bus.busClient then .error .einval
  else
    let mask := bus.localMask mask
    if name = str "org.freedesktop.DBus.Local" then .error .einval
    else if name = str "org.freedesktop.DBus" then (sdBusGetOwnerCreds bus mask).map some
    else if !bus.isOpen then .error .enotconn
    else do
      let unique ← (if Field.uniqueName.bit ∈ mask ∨ mask = ∅ then driver.nameOwner.map some
        else .ok none)
      if mask = ∅ then .ok none
      else
        let c := if Field.uniqueName.bit ∈ mask ∧ unique.isSome then
            { busCredsNew with uniqueName := unique, mask := maskOf [.uniqueName] }
          else busCredsNew
        let c ← askDriver mask driver c
        .ok (some (busCredsAddMore c mask))

/-- What the functions here read of a message. The credentials of a message come from its header:
nothing else was stored in them. -/
structure Message where
  isSealed : Bool
  bus : Option Bus
  sender : Option Str
  creds : SdBusCreds
  creds_mask : creds.mask ⊆ maskOf [.selinuxContext, .uniqueName, .wellKnownNames]

def sdBusQuerySenderCreds (call : Message) (driver : Driver) (mask : Mask) :
    Except Errno (Option SdBusCreds) :=
  if !call.isSealed then .error .eperm
  else
    match call.bus with
    | none => .error .einval
    | some bus =>
      if bus.pidChanged then .error .echild
      else if !bus.isOpen then .error .enotconn
      else if call.creds.mask ≠ ∅ ∧ mask \ call.creds.mask = ∅ then .ok (some call.creds)
      else if call.creds.mask = ∅ ∨ Field.pid.bit ∉ call.creds.mask then
        match call.sender with
        | some sender => sdBusGetNameCreds bus driver sender mask
        | none => (sdBusGetOwnerCreds bus mask).map some
      else .ok (some (busCredsExtendByPid call.creds mask))

/-- There is one user (`sys_compat.c`). -/
def getuid : Nat := 0

def checkUid (c : SdBusCreds) (knowCaps : Bool) (capability : Int) : Except Errno Bool :=
  if getuid ≠ 0 ∨ knowCaps = false ∨ capability < 0 then
    if c.augmented ∩ maskOf [.uid, .euid] ≠ ∅ then .error .eperm
    else
      let r :=
        match sdBusCredsGetEuid c with
        | .error _ => sdBusCredsGetUid c
        | .ok senderUid => .ok senderUid
      match r with
      | .error _ => .ok false
      | .ok senderUid => .ok (senderUid = getuid ∨ getuid ≠ 0 ∧ senderUid = 0)
  else .ok false

def privilegeMask (capability : Int) : Mask :=
  if 0 ≤ capability then maskOf [.uid, .euid, .effectiveCaps] else maskOf [.uid, .euid]

/-- `sd_bus_query_sender_privilege`, whose first checks are those of the query; without an object no
getter answers. -/
def sdBusQuerySenderPrivilege (call : Message) (driver : Driver) (capability : Int) :
    Except Errno Bool :=
  match sdBusQuerySenderCreds call driver (privilegeMask capability) with
  | .error e => .error e
  | .ok none => .ok false
  | .ok (some c) =>
    if 0 ≤ capability then
      if c.augmented ∩ maskOf [.effectiveCaps] ≠ ∅ then .error .eperm
      else
        match sdBusCredsHasEffectiveCap c capability with
        | .error _ => checkUid c false capability
        | .ok r => if 0 < r then .ok true else checkUid c true capability
    else checkUid c false capability

/-! ## What was established -/

inductive Build
  | new
  | owner (bus : Bus) (mask : Mask)
  | named (bus : Bus) (driver : Driver) (name : Str) (mask : Mask)
  | addMore (b : Build) (mask : Mask)
  | extend (b : Build) (mask : Mask)

def Build.run : Build → Except Errno (Option SdBusCreds)
  | .new => .ok (some busCredsNew)
  | .owner bus mask => (sdBusGetOwnerCreds bus mask).map some
  | .named bus driver name mask => sdBusGetNameCreds bus driver name mask
  | .addMore b mask => b.run.map fun c => c.map (busCredsAddMore · mask)
  | .extend b mask => b.run.map fun c => c.map (busCredsExtendByPid · mask)

def Bus.KnowsUid (bus : Bus) : Prop := bus.ucredValid ∧ uidIsValid bus.ucredUid

def NamesUid (mask : Mask) (driver : Driver) : Prop :=
  needUid mask ∧
    (asksAtOnce mask → ∀ entries failure, driver.credentials = .ok (entries, failure) →
      ∃ e ∈ entries, e.name = str "UnixUserID")

def Build.StoresEuid : Build → Prop
  | .new => False
  | .owner bus _ => bus.KnowsUid
  | .named bus driver name mask =>
    if name = str "org.freedesktop.DBus" then bus.KnowsUid
    else NamesUid (bus.localMask mask) driver
  | .addMore b _ => b.StoresEuid
  | .extend _ _ => False

def TellsStored (c : SdBusCreds) (g : Getter) : Prop :=
  (∃ v, g.run c = .ok v) → c.stored g.field

def Build.Tells (b : Build) : Getter → Prop
  | .euid => b.StoresEuid
  | .uid | .effectiveCap _ => False
  | _ => True

/-- The object that is asked says that the user of the sender is the own one or the superuser, or
knows its capabilities. -/
def Established (call : Message) (driver : Driver) (capability : Int) : Prop :=
  ∃ c, sdBusQuerySenderCreds call driver (privilegeMask capability) = .ok (some c) ∧
    ((∃ u, (c.euid = some u ∨ c.uid = some u) ∧ (u = getuid ∨ u = 0)) ∨ c.capability.isSome)

def AsksTransport (call : Message) (bus : Bus) : Prop :=
  call.isSealed ∧ call.bus = some bus ∧ bus.pidChanged = false ∧ bus.isOpen ∧
    (call.sender = none ∨ call.sender = some (str "org.freedesktop.DBus") ∧ bus.busClient)

/-- A capability is asked for, or the transport is not asked, or it knows the user of the peer if it
knows the peer. -/
def UidKnown (call : Message) (capability : Int) : Prop :=
  0 ≤ capability ∨ ∀ bus, AsksTransport call bus → bus.ucredValid → uidIsValid bus.ucredUid

def Bare (c : SdBusCreds) : Prop := c.uid = none ∧ c.capability = none

theorem ucredCreds_spec (bus : Bus) (mask : Mask) {c : SdBusCreds} (h : Bare c)
    (heuid : c.euid = none) :
    Bare (bus.ucredCreds mask c) ∧ ((bus.ucredCreds mask c).euid.isSome ↔ bus.KnowsUid) := by
  unfold Bus.ucredCreds Bus.KnowsUid
  by_cases hv : bus.ucredValid = true
  · by_cases hu : uidIsValid bus.ucredUid = true
    · simp only [if_pos hv, if_pos hu]
      split <;> split <;> exact ⟨h, iff_of_true rfl ⟨hv, hu⟩⟩
    · simp only [if_pos hv, if_neg hu]
      split <;> split <;> exact ⟨h, iff_of_false (by simp [heuid]) fun hk => hu hk.2⟩
  · rw [if_neg hv]
    exact ⟨h, iff_of_false (by simp [heuid]) fun hk => hv hk.1⟩

theorem sdBusGetOwnerCreds_spec {bus : Bus} {mask : Mask} {c : SdBusCreds}
    (h : sdBusGetOwnerCreds bus mask = .ok c) :
    Bare c ∧ (c.euid.isSome ↔ bus.KnowsUid) := by
  simp only [sdBusGetOwnerCreds] at h
  split at h
  · exact absurd h nofun
  · split at h
    · exact absurd h nofun
    · split at h
      · exact absurd h nofun
      · split at h
        · exact absurd h nofun
        · have hspec := ucredCreds_spec bus (bus.localMask mask) (c := busCredsNew) ⟨rfl, rfl⟩ rfl
          obtain rfl := Except.ok.inj h
          unfold busCredsAddMore
          split <;> split <;> exact hspec

theorem storePid_spec (mask : Mask) (c : SdBusCreds) (p : Nat) :
    (Bare c → Bare (storePid mask c p)) ∧ (storePid mask c p).euid = c.euid := by
  unfold storePid
  split
  · exact ⟨id, rfl⟩
  · exact ⟨id, rfl⟩

theorem readEntry_spec {mask : Mask} {s s' : SdBusCreds × Nat} {e : Entry} (h : Bare s.1)
    (hread : readEntry mask s e = .ok s') :
    Bare s'.1 ∧ (s'.1.euid.isSome ↔
      s.1.euid.isSome ∨ needUid mask ∧ e.name = str "UnixUserID") := by
  unfold readEntry at hread
  split at hread
  · rename_i huid
    obtain ⟨u, -, rfl⟩ := exists_of_map hread
    exact ⟨h, iff_of_true rfl (.inr huid)⟩
  · rename_i huid
    rw [or_iff_left huid]
    split at hread
    · obtain ⟨p, -, rfl⟩ := exists_of_map hread
      obtain ⟨hbare, heuid⟩ := storePid_spec mask s.1 p
      exact ⟨hbare h, by rw [heuid]⟩
    · split at hread
      · obtain ⟨p, -, rfl⟩ := exists_of_map hread
        exact ⟨h, Iff.rfl⟩
      · obtain ⟨-, -, rfl⟩ := exists_of_map hread
        exact ⟨h, Iff.rfl⟩

theorem readEntries_spec {mask : Mask} {s' : SdBusCreds × Nat} :
    ∀ {es : List Entry} {s : SdBusCreds × Nat}, Bare s.1 → readEntries mask s es = .ok s' →
      Bare s'.1 ∧ (s'.1.euid.isSome ↔
        s.1.euid.isSome ∨ needUid mask ∧ ∃ e ∈ es, e.name = str "UnixUserID")
  | [], s, hbare, h => by
    obtain rfl := Except.ok.inj h
    exact ⟨hbare, (or_iff_left fun ⟨_, _, he, _⟩ => absurd he List.not_mem_nil).symm⟩
  | e :: es, s, hbare, h => by
    rw [readEntries] at h
    split at h
    · exact absurd h nofun
    · rename_i t ht
      obtain ⟨hbare, hiff⟩ := readEntry_spec hbare ht
      obtain ⟨hbare, hiff'⟩ := readEntries_spec hbare h
      refine ⟨hbare, ?_⟩
      rw [hiff', hiff, or_assoc, ← and_or_left, List.exists_mem_cons_iff]

theorem separateCalls_spec {mask : Mask} {driver : Driver} {c c' : SdBusCreds} (hbare : Bare c)
    (hnone : c.euid = none) (h : separateCalls mask driver c = .ok c') :
    Bare c' ∧ (c'.euid.isSome ↔ needUid mask) := by
  obtain ⟨c₁, h₁, h⟩ := ok_of_bind h
  obtain ⟨c₂, h₂, h⟩ := ok_of_bind h
  have hpid : Bare c₁ ∧ c₁.euid = none := by
    split at h₁
    · obtain ⟨p, -, rfl⟩ := exists_of_map h₁
      obtain ⟨hb, he⟩ := storePid_spec mask c p
      exact ⟨hb hbare, he.trans hnone⟩
    · exact Except.ok.inj h₁ ▸ ⟨hbare, hnone⟩
  have huid : Bare c₂ ∧ (c₂.euid.isSome ↔ needUid mask) := by
    split at h₂
    · rename_i hneed
      obtain ⟨u, -, rfl⟩ := exists_of_map h₂
      exact ⟨hpid.1, iff_of_true rfl hneed⟩
    · rename_i hneed
      exact Except.ok.inj h₂ ▸ ⟨hpid.1, iff_of_false (by simp [hpid.2]) hneed⟩
  split at h
  · split at h
    · exact absurd h nofun
    · exact Except.ok.inj h ▸ huid
    · exact Except.ok.inj h ▸ huid
  · exact Except.ok.inj h ▸ huid

theorem askDriver_spec {mask : Mask} {driver : Driver} {c c' : SdBusCreds} (hbare : Bare c)
    (hnone : c.euid = none) (h : askDriver mask driver c = .ok c') :
    Bare c' ∧ (c'.euid.isSome ↔ NamesUid mask driver) := by
  unfold askDriver at h
  unfold NamesUid
  split at h
  · rename_i honce
    split at h
    · exact absurd h nofun
    · rename_i hreply
      obtain ⟨hb, he⟩ := separateCalls_spec hbare hnone h
      refine ⟨hb, he.trans (and_iff_left fun _ es f hok => ?_).symm⟩
      exact absurd (hreply.symm.trans hok) nofun
    · rename_i es failure hreply
      split at h
      · exact absurd h nofun
      · rename_i c₁ pid hread
        obtain ⟨hb, he⟩ := readEntries_spec (s := (c, 0)) hbare hread
        have huid : c₁.euid.isSome ↔ needUid mask ∧
            (asksAtOnce mask → ∀ entries failure, driver.credentials = .ok (entries, failure) →
              ∃ e ∈ entries, e.name = str "UnixUserID") := by
          rw [he, hnone, hreply]
          refine ⟨fun h => ?_, fun h => .inr ⟨h.1, h.2 honce es failure rfl⟩⟩
          obtain ⟨hneed, hnamed⟩ := h.resolve_left nofun
          refine ⟨hneed, fun _ es' f' hok => ?_⟩
          obtain ⟨rfl, -⟩ := Prod.mk.inj (Except.ok.inj hok)
          exact hnamed
        split at h
        · exact absurd h nofun
        · split at h
          · exact absurd h nofun
          · exact Except.ok.inj h ▸ ⟨hb, huid⟩
  · rename_i honce
    obtain ⟨hb, he⟩ := separateCalls_spec hbare hnone h
    exact ⟨hb, he.trans (and_iff_left fun h => absurd h honce).symm⟩

theorem sdBusGetNameCreds_ok {bus : Bus} {driver : Driver} {name : Str} {mask : Mask}
    {c : SdBusCreds} (h : sdBusGetNameCreds bus driver name mask = .ok (some c)) :
    bus.busClient = true ∧
      (name = str "org.freedesktop.DBus" ∧
          sdBusGetOwnerCreds bus (bus.localMask mask) = .ok c ∨
        name ≠ str "org.freedesktop.DBus" ∧ Bare c ∧
          (c.euid.isSome ↔ NamesUid (bus.localMask mask) driver)) := by
  rw [sdBusGetNameCreds] at h
  obtain ⟨-, h⟩ := ok_of_guard h
  obtain ⟨-, h⟩ := ok_of_guard h
  obtain ⟨-, h⟩ := ok_of_guard h
  obtain ⟨hclient, h⟩ := ok_of_guard h
  obtain ⟨-, h⟩ := ok_of_guard h
  refine ⟨by simpa using hclient, ?_⟩
  by_cases hdriver : name = str "org.freedesktop.DBus"
  · rw [if_pos hdriver] at h
    obtain ⟨c', hc', hsome⟩ := exists_of_map h
    obtain rfl := Option.some.inj hsome
    exact .inl ⟨hdriver, hc'⟩
  · rw [if_neg hdriver] at h
    obtain ⟨-, h⟩ := ok_of_guard h
    obtain ⟨unique, -, h⟩ := ok_of_bind h
    split at h
    · exact absurd (Except.ok.inj h) nofun
    · obtain ⟨c', hask, h⟩ := ok_of_bind h
      obtain rfl := Option.some.inj (Except.ok.inj h)
      refine .inr ⟨hdriver, @askDriver_spec _ _ _ c' ?_ ?_ hask⟩
      · split <;> exact ⟨rfl, rfl⟩
      · split <;> rfl

theorem sdBusGetNameCreds_spec {bus : Bus} {driver : Driver} {name : Str} {mask : Mask}
    {c : SdBusCreds} (h : sdBusGetNameCreds bus driver name mask = .ok (some c)) :
    Bare c ∧ (c.euid.isSome ↔
      if name = str "org.freedesktop.DBus" then bus.KnowsUid
      else NamesUid (bus.localMask mask) driver) := by
  obtain ⟨-, ⟨hdriver, howner⟩ | ⟨hdriver, hspec⟩⟩ := sdBusGetNameCreds_ok h
  · rw [if_pos hdriver]
    exact sdBusGetOwnerCreds_spec howner
  · rw [if_neg hdriver]
    exact hspec

/-! ## Getters of what is built -/

theorem Build.run_spec {c : SdBusCreds} : ∀ {b : Build}, b.run = .ok (some c) →
    Bare c ∧ (c.euid.isSome ↔ b.StoresEuid)
  | .new, h => by
    obtain rfl := Option.some.inj (Except.ok.inj h)
    exact ⟨⟨rfl, rfl⟩, iff_of_false nofun id⟩
  | .owner bus mask, h => by
    obtain ⟨c', hc', hsome⟩ := exists_of_map h
    obtain rfl := Option.some.inj hsome
    exact sdBusGetOwnerCreds_spec hc'
  | .named bus driver name mask, h => sdBusGetNameCreds_spec h
  | .addMore b mask, h => by
    obtain ⟨c', hc', hmap⟩ := exists_of_map h
    obtain ⟨d, rfl, rfl⟩ := Option.map_eq_some_iff.mp hmap
    exact Build.run_spec (b := b) (c := d) hc'
  | .extend b mask, h => by
    obtain ⟨c', -, hmap⟩ := exists_of_map h
    obtain ⟨d, -, rfl⟩ := Option.map_eq_some_iff.mp hmap
    exact ⟨⟨rfl, rfl⟩, iff_of_false nofun id⟩

theorem tellsStored_iff {b : Build} {c : SdBusCreds} (h : b.run = .ok (some c)) (g : Getter) :
    TellsStored c g ↔ b.Tells g := by
  obtain ⟨⟨huid, hcap⟩, heuid⟩ := Build.run_spec h
  cases g with
  | euid => exact (forall_prop_of_true ⟨c.euid.getD 0, rfl⟩).trans heuid
  | uid =>
    refine iff_of_false (fun ht => ?_) id
    simpa [SdBusCreds.stored, Getter.field, huid] using ht ⟨_, rfl⟩
  | effectiveCap capability =>
    exact iff_of_false
      (fun ht => by simpa [SdBusCreds.stored, Getter.field, hcap] using ht ⟨0, rfl⟩) id
  | _ => exact iff_of_true (fun ⟨_, hv⟩ => absurd hv nofun) trivial

theorem checkUid_caps (c : SdBusCreds) {capability : Int} (h : 0 ≤ capability) :
    checkUid c true capability = .ok false := by
  refine if_neg ?_
  rintro (hne | htrue | hneg)
  · exact hne rfl
  · exact absurd htrue nofun
  · omega

theorem sdBusQuerySenderPrivilege_cap {call : Message} {driver : Driver} {capability : Int}
    (h : 0 ≤ capability) : sdBusQuerySenderPrivilege call driver capability ≠ .ok true := by
  unfold sdBusQuerySenderPrivilege
  split
  · exact nofun
  · exact nofun
  · rename_i c _
    rw [if_pos h]
    split
    · exact nofun
    · change checkUid c true capability ≠ .ok true
      rw [checkUid_caps c h]
      exact nofun

theorem sdBusQuerySenderPrivilege_uid {call : Message} {driver : Driver} {capability : Int}
    (hneg : ¬0 ≤ capability) :
    sdBusQuerySenderPrivilege call driver capability = .ok true ↔
      ∃ c, sdBusQuerySenderCreds call driver (privilegeMask capability) = .ok (some c) ∧
        c.augmented ∩ maskOf [.uid, .euid] = ∅ ∧ c.euid.getD 0 = 0 := by
  unfold sdBusQuerySenderPrivilege
  split
  · rename_i hq
    exact iff_of_false nofun fun ⟨_, hc, _⟩ => absurd (hq.symm.trans hc) nofun
  · rename_i hq
    refine iff_of_false (fun h => absurd (Except.ok.inj h) nofun) fun ⟨_, hc, _⟩ => ?_
    exact absurd (Except.ok.inj (hq.symm.trans hc)) nofun
  · rename_i c hq
    rw [if_neg hneg]
    have hcheck : checkUid c false capability = .ok true ↔
        c.augmented ∩ maskOf [.uid, .euid] = ∅ ∧ c.euid.getD 0 = 0 := by
      rw [checkUid, if_pos (.inr (.inl rfl))]
      split
      · rename_i hne
        exact iff_of_false nofun fun h => hne h.1
      · rename_i hempty
        rw [and_iff_right (not_not.mp hempty)]
        change Except.ok (decide (c.euid.getD 0 = getuid ∨ getuid ≠ 0 ∧ c.euid.getD 0 = 0)) =
          .ok true ↔ _
        rw [Except.ok.injEq, decide_eq_true_iff]
        exact or_iff_left fun h => h.1 rfl
    rw [hcheck]
    refine ⟨fun h => ⟨c, hq, h⟩, fun ⟨c', hc', h⟩ => ?_⟩
    obtain rfl := Option.some.inj (Except.ok.inj (hq.symm.trans hc'))
    exact h

theorem localMask_subset (bus : Bus) (mask : Mask) : bus.localMask mask ⊆ mask := by
  unfold Bus.localMask
  split
  · exact subset_rfl
  · exact Finset.sdiff_subset

theorem ucredValid_of_ok {bus : Bus} {mask : Mask} {c : SdBusCreds}
    (h : sdBusGetOwnerCreds bus mask = .ok c) (hlabel : Field.selinuxContext.bit ∉ mask)
    (hgroups : Field.supplementaryGids.bit ∉ mask) : bus.ucredValid = true := by
  by_contra hv
  have hnone : bus.ucredValid = false ∧
      ¬(bus.label.isSome ∧ Field.selinuxContext.bit ∈ bus.localMask mask) ∧
      ¬(bus.groups.isSome ∧ Field.supplementaryGids.bit ∈ bus.localMask mask) :=
    ⟨Bool.eq_false_iff.mpr hv, fun hl => hlabel (localMask_subset bus mask hl.2),
      fun hg => hgroups (localMask_subset bus mask hg.2)⟩
  simp only [sdBusGetOwnerCreds, if_pos hnone] at h
  split at h
  · exact absurd h nofun
  · split at h
    · exact absurd h nofun
    · split at h
      · exact absurd h nofun
      · exact absurd h nofun

structure Answered (call : Message) (c : SdBusCreds) : Prop where
  bare : Bare c
  asked : c.euid.isSome ∨
    ∃ bus, AsksTransport call bus ∧ bus.ucredValid = true ∧ (c.euid.isSome ↔ bus.KnowsUid)

theorem answered_of_query {call : Message} {driver : Driver} {capability : Int} {c : SdBusCreds}
    (hneg : ¬0 ≤ capability)
    (h : sdBusQuerySenderCreds call driver (privilegeMask capability) = .ok (some c)) :
    Answered call c := by
  have hmask : privilegeMask capability = maskOf [.uid, .euid] := if_neg hneg
  have heuid : Field.euid.bit ∉ call.creds.mask :=
    fun hm => absurd (call.creds_mask hm) (by decide)
  have hpid : Field.pid.bit ∉ call.creds.mask := fun hm => absurd (call.creds_mask hm) (by decide)
  rw [hmask, sdBusQuerySenderCreds] at h
  split at h
  · exact absurd h nofun
  · rename_i hsealed
    split at h
    · exact absurd h nofun
    · rename_i bus hbus
      split at h
      · exact absurd h nofun
      · rename_i hchanged
        split at h
        · exact absurd h nofun
        · rename_i hopen
          have hbase : call.isSealed = true ∧ bus.pidChanged = false ∧ bus.isOpen = true :=
            ⟨by simpa using hsealed, by simpa using hchanged, by simpa using hopen⟩
          rw [if_neg fun hall => heuid (Finset.sdiff_eq_empty_iff_subset.mp hall.2 (by decide)),
            if_pos (.inr hpid)] at h
          split at h
          · rename_i name hname
            obtain ⟨hclient, ⟨hdriver, howner⟩ | ⟨-, hbare, hiff⟩⟩ := sdBusGetNameCreds_ok h
            · obtain ⟨hbare, hiff⟩ := sdBusGetOwnerCreds_spec howner
              have hsub := localMask_subset bus (maskOf [.uid, .euid])
              refine ⟨hbare, .inr ⟨bus, ⟨hbase.1, hbus, hbase.2.1, hbase.2.2,
                .inr ⟨hdriver ▸ hname, hclient⟩⟩, ucredValid_of_ok howner ?_ ?_, hiff⟩⟩
              · exact fun hm => absurd (hsub hm) (by decide)
              · exact fun hm => absurd (hsub hm) (by decide)
            · refine ⟨hbare, .inl (hiff.mpr ?_)⟩
              unfold NamesUid Bus.localMask
              split <;> exact ⟨by decide, fun honce => absurd honce (by decide)⟩
          · rename_i hname
            obtain ⟨c', hc', hsome⟩ := exists_of_map h
            obtain rfl := Option.some.inj hsome
            obtain ⟨hbare, hiff⟩ := sdBusGetOwnerCreds_spec hc'
            exact ⟨hbare, .inr ⟨bus, ⟨hbase.1, hbus, hbase.2.1, hbase.2.2, .inl hname⟩,
              ucredValid_of_ok hc' (by decide) (by decide), hiff⟩⟩

theorem ucredCreds_augmented (bus : Bus) (mask : Mask) (c : SdBusCreds) :
    (bus.ucredCreds mask c).augmented = c.augmented := by
  unfold Bus.ucredCreds
  split
  · dsimp only
    split <;> split <;> split <;> rfl
  · rfl

theorem sdBusGetOwnerCreds_exists {bus : Bus} {mask : Mask} (hmask : maskIsKnown mask)
    (hchanged : bus.pidChanged = false) (hopen : bus.isOpen = true) (hvalid : bus.ucredValid = true) :
    ∃ c, sdBusGetOwnerCreds bus mask = .ok c ∧ c.augmented = ∅ := by
  have hdata : ¬(bus.ucredValid = false ∧
      ¬(bus.label.isSome ∧ Field.selinuxContext.bit ∈ bus.localMask mask) ∧
      ¬(bus.groups.isSome ∧ Field.supplementaryGids.bit ∈ bus.localMask mask)) :=
    fun h => Bool.eq_false_iff.mp h.1 hvalid
  simp only [sdBusGetOwnerCreds, if_neg (not_not.mpr hmask), hchanged, hopen, Bool.not_true,
    if_neg Bool.false_ne_true, if_neg hdata]
  refine ⟨_, rfl, ?_⟩
  unfold busCredsAddMore
  split <;> split <;> exact ucredCreds_augmented bus _ busCredsNew

theorem query_of_asksTransport {call : Message} {bus : Bus} (driver : Driver) {capability : Int}
    (hneg : ¬0 ≤ capability) (h : AsksTransport call bus) (hvalid : bus.ucredValid = true) :
    ∃ c mask, sdBusQuerySenderCreds call driver (privilegeMask capability) = .ok (some c) ∧
      sdBusGetOwnerCreds bus mask = .ok c ∧ c.augmented = ∅ := by
  obtain ⟨hsealed, hbus, hchanged, hopen, hsender⟩ := h
  have hmask : privilegeMask capability = maskOf [.uid, .euid] := if_neg hneg
  have heuid : Field.euid.bit ∉ call.creds.mask :=
    fun hm => absurd (call.creds_mask hm) (by decide)
  have hpid : Field.pid.bit ∉ call.creds.mask := fun hm => absurd (call.creds_mask hm) (by decide)
  rw [hmask]
  simp only [sdBusQuerySenderCreds, hsealed, hbus, hchanged, hopen, Bool.not_true,
    if_neg Bool.false_ne_true]
  rw [if_neg fun hall => heuid (Finset.sdiff_eq_empty_iff_subset.mp hall.2 (by decide)),
    if_pos (.inr hpid)]
  obtain hnone | ⟨hdriver, hclient⟩ := hsender
  · have hknown : maskIsKnown (maskOf [.uid, .euid]) := by decide
    obtain ⟨c, hc, haug⟩ := sdBusGetOwnerCreds_exists hknown hchanged hopen hvalid
    rw [hnone]
    exact ⟨c, _, by rw [hc]; rfl, hc, haug⟩
  · have hknown : maskIsKnown (bus.localMask (maskOf [.uid, .euid])) := by
      unfold Bus.localMask
      split <;> decide
    obtain ⟨c, hc, haug⟩ := sdBusGetOwnerCreds_exists hknown hchanged hopen hvalid
    rw [hdriver]
    refine ⟨c, _, ?_, hc, haug⟩
    simp only [sdBusGetNameCreds, hchanged, hclient, if_neg Bool.false_ne_true, Bool.not_true]
    rw [if_neg (not_not.mpr (by decide : maskIsKnown (maskOf [.uid, .euid]))), if_neg (by decide),
      if_neg (by decide), if_pos trivial, hc]
    rfl

theorem privilege_established_iff (call : Message) (driver : Driver) (capability : Int) :
    (sdBusQuerySenderPrivilege call driver capability = .ok true →
      Established call driver capability) ↔ UidKnown call capability := by
  by_cases hcap : 0 ≤ capability
  · exact iff_of_true (fun h => absurd h (sdBusQuerySenderPrivilege_cap hcap)) (.inl hcap)
  · rw [sdBusQuerySenderPrivilege_uid hcap, UidKnown, or_iff_right hcap]
    constructor
    · intro himp bus hasks hvalid
      by_contra hinvalid
      obtain ⟨c, mask, hq, howner, haug⟩ := query_of_asksTransport driver hcap hasks hvalid
      obtain ⟨⟨huid, hcaps⟩, hiff⟩ := sdBusGetOwnerCreds_spec howner
      have heuid : c.euid = none := by
        by_contra hne
        exact hinvalid (hiff.mp (Option.isSome_iff_ne_none.mpr hne)).2
      -- nothing is stored, so the user is read as zero
      obtain ⟨c', hc', hfound⟩ := himp ⟨c, hq, by rw [haug, Finset.empty_inter], by rw [heuid]; rfl⟩
      obtain rfl := Option.some.inj (Except.ok.inj (hq.symm.trans hc'))
      obtain ⟨u, hu, -⟩ | hcap := hfound
      · simp [heuid, huid] at hu
      · simp [hcaps] at hcap
    · rintro hknown ⟨c, hq, -, hzero⟩
      obtain ⟨-, hasked⟩ := answered_of_query hcap hq
      have hsome : c.euid.isSome := by
        obtain h | ⟨bus, hasks, hvalid, hiff⟩ := hasked
        · exact h
        · exact hiff.mpr ⟨hvalid, hknown bus hasks hvalid⟩
      obtain ⟨u, hu⟩ := Option.isSome_iff_exists.mp hsome
      rw [hu] at hzero
      exact ⟨c, hq, .inl ⟨u, .inl hu, .inl hzero⟩⟩

/-- The getters tell only what was stored where they are none of the user and of capabilities, or where
a user was stored; the privilege comes from an established user exactly where the transport does not
leave it open. -/
theorem neverInvents_iff (b : Build) (c : SdBusCreds) (g : Getter) (call : Message)
    (driver : Driver) (capability : Int) :
    (b.run = .ok (some c) → (TellsStored c g ↔ b.Tells g)) ∧
      ((sdBusQuerySenderPrivilege call driver capability = .ok true →
        Established call driver capability) ↔ UidKnown call capability) :=
  ⟨fun h => tellsStored_iff h g, privilege_established_iff call driver capability⟩

def rootBus : Bus where
  pidChanged := false
  isOpen := true
  isLocal := true
  busClient := true
  ucredValid := true
  ucredPid := 1
  ucredUid := 0
  ucredGid := 0
  label := none
  groups := some []

def ownerDriver : Driver where
  nameOwner := .ok (str ":1.5")
  credentials := .error none
  unixProcessId := .ok 42
  unixUser := .ok 1000
  securityContext := .error none

def ownerCreds : SdBusCreds :=
  { busCredsNew with mask := maskOf [.euid], euid := some 0, egid := some 0, pid := some 1 }

def nameCreds : SdBusCreds :=
  { busCredsNew with mask := maskOf [.uniqueName], uniqueName := some (str ":1.5") }

def peerCall : Message where
  isSealed := true
  bus := some { rootBus with ucredUid := 0xffff }
  sender := none
  creds := busCredsNew
  creds_mask := Finset.empty_subset _

theorem neverInvents_iff_owner : TellsStored ownerCreds .euid :=
  ((neverInvents_iff (.owner rootBus (maskOf [.euid])) ownerCreds .euid peerCall ownerDriver 0).1
    (by decide +kernel)).mpr ⟨rfl, by decide⟩

/-- The user of a name is told as the superuser, and the peer without a user has the privilege. -/
theorem not_neverInvents :
    (Build.named rootBus ownerDriver (str ":1.5") (maskOf [.uniqueName])).run = .ok (some nameCreds) ∧
      Getter.euid.run nameCreds = .ok 0 ∧ ¬TellsStored nameCreds .euid ∧
      sdBusQuerySenderPrivilege peerCall ownerDriver (-1) = .ok true ∧
      ¬Established peerCall ownerDriver (-1) := by
  refine ⟨by decide +kernel, rfl, fun h => absurd (h ⟨0, rfl⟩) nofun, by decide +kernel, fun h => ?_⟩
  have hknown := ((privilege_established_iff peerCall ownerDriver (-1)).mp fun _ => h).resolve_left
    (by decide)
  exact absurd (hknown _ ⟨rfl, rfl, rfl, rfl, .inl rfl⟩ rfl) (by decide)

end Basu.Zephyr
