import Basu.Creds.Caps
import Mathlib.Data.Finset.Lattice.Basic
import Mathlib.Data.Finset.SDiff
import Mathlib.Data.Fintype.Basic

/-! Credential objects (`bus-creds.c`): a mask of the fields that are held, the members they stand in,
and what is added to them from `/proc`. -/

namespace Basu.Creds
open Lib

inductive Field
  | pid | tid | ppid | uid | euid | suid | fsuid | gid | egid | sgid | fsgid | supplementaryGids
  | comm | tidComm | exe | cmdline | cgroup | unit | slice | userUnit | userSlice | session
  | ownerUid | effectiveCaps | permittedCaps | inheritableCaps | boundingCaps | selinuxContext
  | auditSessionId | auditLoginUid | tty | uniqueName | wellKnownNames | description
  deriving DecidableEq

/-- A `uint64_t` of flags, as the set of its bits. -/
abbrev Mask := Finset (Fin 64)

def Field.bit : Field → Fin 64
  | .pid => 0
  | .tid => 1
  | .ppid => 2
  | .uid => 3
  | .euid => 4
  | .suid => 5
  | .fsuid => 6
  | .gid => 7
  | .egid => 8
  | .sgid => 9
  | .fsgid => 10
  | .supplementaryGids => 11
  | .comm => 12
  | .tidComm => 13
  | .exe => 14
  | .cmdline => 15
  | .cgroup => 16
  | .unit => 17
  | .slice => 18
  | .userUnit => 19
  | .userSlice => 20
  | .session => 21
  | .ownerUid => 22
  | .effectiveCaps => 23
  | .permittedCaps => 24
  | .inheritableCaps => 25
  | .boundingCaps => 26
  | .selinuxContext => 27
  | .auditSessionId => 28
  | .auditLoginUid => 29
  | .tty => 30
  | .uniqueName => 31
  | .wellKnownNames => 32
  | .description => 33

def augmentBit : Fin 64 := 63

def maskOf (fields : List Field) : Mask := (fields.map Field.bit).toFinset

def uidFields : Mask := maskOf [.uid, .euid, .suid, .fsuid]

def gidFields : Mask := maskOf [.gid, .egid, .sgid, .fsgid]

def capFields : Mask := maskOf [.effectiveCaps, .permittedCaps, .inheritableCaps, .boundingCaps]

def cgroupFields : Mask :=
  maskOf [.cgroup, .unit, .userUnit, .slice, .userSlice, .session, .ownerUid]

def statusFields : Mask :=
  maskOf [.ppid, .supplementaryGids] ∪ uidFields ∪ gidFields ∪ capFields

def untouchedFields : Mask :=
  maskOf [.pid, .tid, .uniqueName, .wellKnownNames, .description] ∪ {augmentBit}

structure SdBusCreds where
  mask : Mask
  augmented : Mask
  uid : Nat
  euid : Nat
  suid : Nat
  fsuid : Nat
  gid : Nat
  egid : Nat
  sgid : Nat
  fsgid : Nat
  supplementaryGids : List Nat
  ppid : Int
  pid : Int
  tid : Int
  comm : Option Str
  tidComm : Option Str
  exe : Option Str
  cmdline : Option Str
  cgroup : Option Str
  cgroupRoot : Option Str
  tty : Option Str
  capability : Option Words
  auditSessionId : Nat
  auditLoginUid : Nat
  label : Option Str
  uniqueName : Option Str
  wellKnownNames : List Str
  wellKnownNamesDriver : Bool
  wellKnownNamesLocal : Bool
  description : Option Str
  deriving DecidableEq

inductive Value
  | number (n : Int)
  | numbers (ns : List Nat)
  | text (s : Option Str)
  | group (cgroup root : Option Str)
  | words (ws : List (Option (BitVec 32)))
  | names (ss : List Str) (driver isLocal : Bool)
  deriving DecidableEq

def SdBusCreds.capWords (lastCap : Nat) (c : SdBusCreds) (set : CapSet) :
    List (Option (BitVec 32)) :=
  let max := divRoundUp lastCap 32
  (List.range max).map fun k =>
    (c.capability.getD (List.replicate (max * 4) 0))[set.offset * max + k]?

def SdBusCreds.value (lastCap : Nat) (c : SdBusCreds) : Field → Value
  | .pid => .number c.pid
  | .tid => .number c.tid
  | .ppid => .number c.ppid
  | .uid => .number c.uid
  | .euid => .number c.euid
  | .suid => .number c.suid
  | .fsuid => .number c.fsuid
  | .gid => .number c.gid
  | .egid => .number c.egid
  | .sgid => .number c.sgid
  | .fsgid => .number c.fsgid
  | .supplementaryGids => .numbers c.supplementaryGids
  | .comm => .text c.comm
  | .tidComm => .text c.tidComm
  | .exe => .text c.exe
  | .cmdline => .text c.cmdline
  | .cgroup | .unit | .slice | .userUnit | .userSlice | .session | .ownerUid =>
    .group c.cgroup c.cgroupRoot
  | .effectiveCaps => .words (c.capWords lastCap .effective)
  | .permittedCaps => .words (c.capWords lastCap .permitted)
  | .inheritableCaps => .words (c.capWords lastCap .inheritable)
  | .boundingCaps => .words (c.capWords lastCap .bounding)
  | .selinuxContext => .text c.label
  | .auditSessionId => .number c.auditSessionId
  | .auditLoginUid => .number c.auditLoginUid
  | .tty => .text c.tty
  | .uniqueName => .text c.uniqueName
  | .wellKnownNames => .names c.wellKnownNames c.wellKnownNamesDriver c.wellKnownNamesLocal
  | .description => .text c.description

/-! ## `/proc` -/

inductive ProcErrno
  | esrch | enoent | eperm | eacces | einval | enxio | enodata | eopnotsupp | eio | other
  /-- An assertion of the source. -/
  | abort
  deriving DecidableEq

inductive StatusLine
  | ppid (r : Except ProcErrno Int)
  | uid (r : Option (Nat × Nat × Nat × Nat))
  | gid (r : Option (Nat × Nat × Nat × Nat))
  | groups (r : Option (List Nat))
  | caps (set : CapSet) (text : Str)
  | unknown

structure Proc where
  status : Except ProcErrno (List StatusLine)
  /-- The status file cannot be read to its end. -/
  statusFailure : Option ProcErrno
  label : Except ProcErrno Str
  comm : Except ProcErrno Str
  exe : Except ProcErrno Str
  cmdline : Except ProcErrno Str
  tidComm : Except ProcErrno Str
  auditSession : Except ProcErrno Nat
  auditLoginUid : Except ProcErrno Nat
  tty : Except ProcErrno Str
  alive : Bool
  unwaited : Bool

def auditSessionInvalid : Nat := 2 ^ 32 - 1
def uidInvalid : Nat := 2 ^ 32 - 1

def CapSet.field : CapSet → Field
  | .inheritable => .inheritableCaps
  | .permitted => .permittedCaps
  | .effective => .effectiveCaps
  | .bounding => .boundingCaps

/-! ## `bus_creds_add_more` -/

/-- The cast to `uid_t` or `gid_t`. -/
def toId (n : Nat) : Nat := n % 2 ^ 32

def statusLine (lastCap : Nat) (missing : Mask) (c : SdBusCreds) :
    StatusLine → Except ProcErrno SdBusCreds
  | .ppid r =>
    if Field.ppid.bit ∈ missing then
      match r with
      | .error e => .error e
      | .ok ppid => .ok { c with ppid := ppid, mask := c.mask ∪ maskOf [.ppid] }
    else .ok c
  | .uid r =>
    if missing ∩ uidFields ≠ ∅ then
      match r with
      | none => .error .eio
      | some (uid, euid, suid, fsuid) =>
        .ok { c with
          uid := if Field.uid.bit ∈ missing then toId uid else c.uid
          euid := if Field.euid.bit ∈ missing then toId euid else c.euid
          suid := if Field.suid.bit ∈ missing then toId suid else c.suid
          fsuid := if Field.fsuid.bit ∈ missing then toId fsuid else c.fsuid
          mask := c.mask ∪ (missing ∩ uidFields) }
    else .ok c
  | .gid r =>
    if missing ∩ gidFields ≠ ∅ then
      match r with
      | none => .error .eio
      | some (gid, egid, sgid, fsgid) =>
        .ok { c with
          gid := if Field.gid.bit ∈ missing then toId gid else c.gid
          egid := if Field.egid.bit ∈ missing then toId egid else c.egid
          sgid := if Field.sgid.bit ∈ missing then toId sgid else c.sgid
          fsgid := if Field.fsgid.bit ∈ missing then toId fsgid else c.fsgid
          mask := c.mask ∪ (missing ∩ gidFields) }
    else .ok c
  | .groups r =>
    if Field.supplementaryGids.bit ∈ missing then
      match r with
      | none => .error .eio
      | some gids =>
        .ok { c with
          supplementaryGids := c.supplementaryGids ++ gids.map toId
          mask := c.mask ∪ maskOf [.supplementaryGids] }
    else .ok c
  | .caps set text =>
    if set.field.bit ∈ missing then
      match parseCaps lastCap c.capability set text with
      | .error .einval => .error .einval
      | .error .outside => .error .abort
      | .ok ws => .ok { c with capability := some ws, mask := c.mask ∪ maskOf [set.field] }
    else .ok c
  | .unknown => .ok c

def readLines (lastCap : Nat) (missing : Mask) :
    SdBusCreds → List StatusLine → Except ProcErrno SdBusCreds
  | c, [] => .ok c
  | c, line :: lines =>
    match statusLine lastCap missing c line with
    | .error e => .error e
    | .ok c => readLines lastCap missing c lines

def readStatus (lastCap : Nat) (missing : Mask) (proc : Proc) (c : SdBusCreds) :
    Except ProcErrno SdBusCreds :=
  if missing ∩ statusFields = ∅ then .ok c
  else
    match proc.status with
    | .error .enoent => .error .esrch
    | .error .eperm | .error .eacces => .ok c
    | .error e => .error e
    | .ok lines =>
      match readLines lastCap missing c lines with
      | .error e => .error e
      | .ok c =>
        match proc.statusFailure with
        | some e => .error e
        | none => .ok c

def addMember {α : Type} (missing : Mask) (field : Field) (unknown : List ProcErrno)
    (read : Except ProcErrno α) (store : SdBusCreds → α → SdBusCreds) (c : SdBusCreds) :
    Except ProcErrno SdBusCreds :=
  if field.bit ∈ missing then
    match read with
    | .error e => if e ∈ unknown then .ok c else .error e
    | .ok a => .ok { store c a with mask := c.mask ∪ maskOf [field] }
  else .ok c

def absentAt {α : Type} (e : ProcErrno) (r : Except ProcErrno α) : Except ProcErrno (Option α) :=
  match r with
  | .ok a => .ok (some a)
  | .error e' => if e' = e then .ok none else .error e'

def goneAt {α : Type} (r : Except ProcErrno α) : Except ProcErrno α :=
  match r with
  | .error .enoent => .error .esrch
  | r => r

def addCgroup (missing : Mask) (c : SdBusCreds) : SdBusCreds :=
  if missing ∩ cgroupFields = ∅ then c
  else
    { c with
      cgroupRoot := some (c.cgroupRoot.getD [charSlash])
      mask := if c.cgroup.isSome then c.mask ∪ (missing ∩ cgroupFields) else c.mask }

def addTidComm (missing : Mask) (tid : Int) (proc : Proc) (c : SdBusCreds) :
    Except ProcErrno SdBusCreds :=
  if 0 < tid then
    addMember missing .tidComm [.eperm, .eacces] (goneAt proc.tidComm)
      (fun c s => { c with tidComm := some s }) c
  else .ok c

def readSession (missing : Mask) (proc : Proc) (c : SdBusCreds) : Except ProcErrno SdBusCreds := do
  let c ← addMember missing .auditSessionId [.eopnotsupp, .enoent, .eperm, .eacces]
    (absentAt .enodata proc.auditSession)
    (fun c n => { c with auditSessionId := n.getD auditSessionInvalid }) c
  let c ← addMember missing .auditLoginUid [.eopnotsupp, .enoent, .eperm, .eacces]
    (absentAt .enodata proc.auditLoginUid)
    (fun c n => { c with auditLoginUid := n.getD uidInvalid }) c
  addMember missing .tty [.eperm, .eacces, .enoent] (absentAt .enxio proc.tty)
    (fun c s => { c with tty := s }) c

def readMembers (lastCap : Nat) (missing : Mask) (tid : Int) (proc : Proc) (c : SdBusCreds) :
    Except ProcErrno SdBusCreds := do
  let c ← readStatus lastCap missing proc c
  let c ← addMember missing .selinuxContext [.enoent, .einval, .eperm, .eacces] proc.label
    (fun c s => { c with label := some s }) c
  let c ← addMember missing .comm [.esrch, .eperm, .eacces] proc.comm
    (fun c s => { c with comm := some s }) c
  let c ← addMember missing .exe [.eperm, .eacces] (absentAt .esrch proc.exe)
    (fun c s => { c with exe := s }) c
  let c ← addMember missing .cmdline [.eperm, .eacces] (goneAt proc.cmdline)
    (fun c s => { c with cmdline := if s = [] then none else some s }) c
  let c ← addTidComm missing tid proc c
  readSession missing proc (addCgroup missing c)

def addFrom (lastCap : Nat) (c : SdBusCreds) (mask : Mask) (pid tid : Int) (proc : Proc) :
    Except ProcErrno SdBusCreds :=
  let tid := if tid ≤ 0 ∧ Field.tid.bit ∈ c.mask then c.tid else tid
  let missing := mask \ (c.mask ∪ untouchedFields)
  if missing = ∅ then .ok c
  else
    let c := if 0 < tid then { c with tid := tid, mask := c.mask ∪ maskOf [.tid] } else c
    match readMembers lastCap missing tid proc c with
    | .error e => .error e
    | .ok c =>
      if !proc.alive then .error .esrch
      else if 0 < tid ∧ tid ≠ pid ∧ !proc.unwaited then .error .esrch
      else .ok { c with augmented := missing ∩ c.mask }

def busCredsAddMore (lastCap : Nat) (c : SdBusCreds) (mask : Mask) (pid tid : Int) (proc : Proc) :
    Except ProcErrno SdBusCreds :=
  if augmentBit ∉ mask then .ok c
  else if 0 < pid then
    addFrom lastCap { c with pid := pid, mask := c.mask ∪ maskOf [.pid] } mask pid tid proc
  else if Field.pid.bit ∈ c.mask then addFrom lastCap c mask c.pid tid proc
  else .ok c

end Basu.Creds
