import Basu.Object.Tree

/-! `bus_process_object`: a method call goes along the object tree until a handler takes it. Every
function it calls back may change the tree, and the walk then starts again; marks keep the handlers
from being called twice. -/

namespace Basu
open Lib
open Function

/-! ## What the walk depends on -/

/-- The sign of an `int` that is returned; nothing else of it is looked at. -/
inductive Ret
  | neg
  | zero
  | pos
  deriving DecidableEq, Repr

/-- What a function called back does: it changes the tree, sets the error or not, and returns. An
enumerator gives paths as well. -/
structure UserOutcome where
  ops : List ObjectOp := []
  ret : Ret := .zero
  error : Bool := false
  children : List Str := []

/-- The functions called back, with the slot and where it matters the member they belong to. -/
inductive UserCall
  | callback (slot : Nat)
  | method (slot : Nat) (key : Str × Str × Str)
  | get (slot : Nat) (member : Str)
  | set (slot : Nat) (key : Str × Str × Str)
  | find (slot : Nat)
  | enumerator (slot : Nat)
  deriving DecidableEq, Repr

/-- A call back: the tree at the time, the path it is made for, the path whose node the function
was found at, and whether only fallbacks were asked for there. -/
structure CallRecord where
  bus : ObjBus
  call : UserCall
  served : Str
  place : Str
  requireFallback : Bool
  outcome : UserOutcome

inductive ReplyKind
  | methodReturn
  | methodError
  deriving DecidableEq, Repr

inductive WalkEvent
  | access (slot : Nat) (key : Str × Str × Str) (granted : Bool)
  | call (record : CallRecord)
  | reply (kind : ReplyKind)

inductive Work
  | rewind
  | newMethodReturn
  | openContainer
  | closeContainer
  | enterContainer
  | exitContainer
  | append
  | read
  | introspect
  | send
  deriving DecidableEq, Repr

/-- Everything outside the object tree: the functions called back, whether work on messages
succeeds, whether the bus is open, the privileges of the sender, and the order of a set. All of it
may depend on what happened before. -/
structure WalkEnv where
  respond : List WalkEvent → UserCall → Str → UserOutcome
  work : List WalkEvent → Work → Bool
  isOpen : List WalkEvent → Bool
  privilege : List WalkEvent → Int → Ret
  setOrder : List Str → List Str

structure WalkBus where
  iterationCounter : Nat
  trusted : Bool := false
  isMonitor : Bool := false
  busClient : Bool := true
  haveLibcap : Bool := false

/-- What the walk reads of the message. The arguments are as `sd_bus_message_read` and
`sd_bus_message_peek_type` give them. -/
structure ObjectCall where
  isMethodCall : Bool := true
  noReply : Bool := false
  hasDestination : Bool := true
  path : Str
  interface : Option Str
  member : Str
  signature : Str := []
  readStringString : Option (Str × Str) := none
  readString : Option Str := none
  peekType : Option (UInt8 × Str) := none

/-- `found_object`, the paths consulted in the passes before and in this one, each with
`require_fallback`, and the record. -/
structure Walk where
  bus : ObjBus
  found : Bool := false
  earlier : List (List (Str × Bool)) := []
  pass : List (Str × Bool) := []
  log : List WalkEvent := []

abbrev WalkStep := Walk → Walk × Ret

/-- `r = f(); if (r != 0) return r;` and on with `g`. -/
def WalkStep.seq (f g : WalkStep) : WalkStep := fun w =>
  if (f w).2 = .zero then g (f w).1 else f w

/-- `if (bus->nodes_modified) return 0;` and on with `f`. -/
def unlessModified (f : WalkStep) : WalkStep := fun w =>
  if w.bus.nodesModified then (w, .zero) else f w

def Walk.setFound (w : Walk) : Walk := { w with found := true }

def Walk.record (w : Walk) (e : WalkEvent) : Walk := { w with log := w.log ++ [e] }

section
variable (env : WalkEnv) (wb : WalkBus) (m : ObjectCall)

/-- `r = ...; if (r < 0) return r;` for work on messages, and on with `f`. -/
def working (k : Work) (f : WalkStep) : WalkStep := fun w =>
  if env.work w.log k then f w else (w, .neg)

def Walk.invoke (w : Walk) (place : Str) (requireFallback : Bool) (served : Str) (c : UserCall) :
    Walk × UserOutcome :=
  let o := env.respond w.log c served
  ({ w.record (.call ⟨w.bus, c, served, place, requireFallback, o⟩) with
      bus := o.ops.foldl ObjectOp.exec w.bus }, o)

/-- `sd_bus_reply_method_return`, `sd_bus_reply_method_error` and their variants. -/
def replyMethod (kind : ReplyKind) : WalkStep := fun w =>
  if !env.isOpen w.log then (w, .neg)
  else if m.noReply then (w, .zero)
  else if env.work w.log .send then (w.record (.reply kind), .pos)
  else (w, .neg)

/-- `sd_bus_send` of a method return; one that nobody expects has `dont_send` set. -/
def sendReply : WalkStep := fun w =>
  if env.isOpen w.log && env.work w.log .send then
    (if m.noReply then w else w.record (.reply .methodReturn), .pos)
  else (w, .neg)

def busMaybeReplyError (r : Ret) (error : Bool) : WalkStep := fun w =>
  if r = .neg || error then ((replyMethod env m .methodError w).1, .pos) else (w, r)

def Walk.markSlot (w : Walk) (s : Nat) (i : Nat) : Walk :=
  { w with bus := w.bus.setSlot s { w.bus.slot s with lastIteration := i } }

/-- The body of the loop in `node_callbacks_run` from `found_object` on; `next` is the rest of the
loop. -/
def callbackRun (p : Str) (requireFallback : Bool) (s : Nat) (next : WalkStep) : WalkStep :=
  fun w =>
    if (w.bus.slot s).lastIteration = wb.iterationCounter then next w
    else working env .rewind (fun w =>
        let r := w.invoke env p requireFallback m.path (.callback s)
        WalkStep.seq (busMaybeReplyError env m r.2.ret r.2.error) next r.1)
      (w.markSlot s wb.iterationCounter)

def nodeCallbacksRun (p : Str) (requireFallback : Bool) : List Nat → WalkStep
  | [] => fun w => (w, .zero)
  | s :: l => unlessModified fun w =>
    if requireFallback && !(w.bus.slot s).isFallback then nodeCallbacksRun p requireFallback l w
    else callbackRun env wb m p requireFallback s (nodeCallbacksRun p requireFallback l) w.setFound

/-! ## Access and user data -/

def capabilityShift (flags : UInt64) : Nat := (flags >>> 40 &&& 0xffff).toNat

def requiredCapability (e : VtableEntry) (vtable : Vtable) : Int :=
  let cap := if capabilityShift e.flags = 0 then capabilityShift vtable.flags
    else capabilityShift e.flags
  if cap = 0 then (if wb.haveLibcap then 21 else -1) else cap - 1

def accessGranted (w : Walk) (c : VtableMember) : Bool :=
  wb.trusted || hasFlag c.entry.flags sdBusVtableUnprivileged ||
    env.privilege w.log (requiredCapability wb c.entry (w.bus.slot c.parent).vtable) = .pos

def checkAccess (c : VtableMember) (next : WalkStep) : WalkStep := fun w =>
  let granted := accessGranted env wb w c
  let w := w.record (.access c.parent c.key granted)
  if granted then next w else busMaybeReplyError env m .neg false w

def nodeVtableGetUserdata (p : Str) (requireFallback : Bool) (served : Str) (s : Nat) :
    WalkStep := fun w =>
  match (w.bus.slot s).find with
  | none => (w, .pos)
  | some _ =>
    let r := w.invoke env p requireFallback served (.find s)
    (r.1, if r.2.ret = .neg || r.2.error then .neg else r.2.ret)

def withUserdata (p : Str) (requireFallback : Bool) (s : Nat) (next : WalkStep) : WalkStep :=
  fun w =>
    let u := nodeVtableGetUserdata env p requireFallback m.path s w
    if u.2 = .pos then unlessModified (fun w => next w.setFound) u.1
    else busMaybeReplyError env m u.2 false u.1

def Walk.markMember (w : Walk) (k : MemberKind) (key : Str × Str × Str) (i : Nat) : Walk :=
  let t := (w.bus.members k).map fun c => if c.key = key then { c with lastIteration := i } else c
  { w with bus := w.bus.setMembers k t }

def VtableEntry.handler : VtableEntry → Option Nat
  | .method _ _ _ _ handler => handler
  | _ => none

def VtableEntry.signature : VtableEntry → Str
  | .method _ _ signature _ _ => signature
  | .signal _ _ signature => signature
  | .property _ _ _ signature _ _ => signature
  | .other => []

def methodRun (p : Str) (requireFallback : Bool) (c : VtableMember) : WalkStep := fun w =>
  if c.entry.signature ≠ m.signature then replyMethod env m .methodError w
  else match c.entry.handler with
    | some _ =>
      let r := w.invoke env p requireFallback m.path (.method c.parent c.key)
      busMaybeReplyError env m r.2.ret r.2.error r.1
    | none =>
      let r := replyMethod env m .methodReturn w
      if r.2 = .neg then r else (r.1, .pos)

def methodCallbacksRun (p : Str) (requireFallback : Bool) (c : VtableMember) : WalkStep := fun w =>
  if requireFallback && !(w.bus.slot c.parent).isFallback then (w, .zero)
  else
    checkAccess env wb m c (withUserdata env m p requireFallback c.parent fun w =>
      if c.lastIteration = wb.iterationCounter then (w, .zero)
      else working env .rewind (methodRun env m p requireFallback c)
        (w.markMember .method c.key wb.iterationCounter)) w

def VtableEntry.getter : VtableEntry → Option Nat
  | .property _ _ _ _ get _ => get
  | _ => none

def VtableEntry.setter : VtableEntry → Option Nat
  | .property _ _ _ _ _ set => set
  | _ => none

def VtableEntry.isWritable : VtableEntry → Bool
  | .property writable _ _ _ _ _ => writable
  | _ => false

def invokePropertyGet (p : Str) (requireFallback : Bool) (served : Str) (s : Nat)
    (e : VtableEntry) : WalkStep := fun w =>
  match e.getter with
  | some _ =>
    let r := w.invoke env p requireFallback served (.get s e.member)
    (r.1, if r.2.ret = .neg || r.2.error then .neg else r.2.ret)
  | none => if env.work w.log .append then (w, .zero) else (w, .neg)

def invokePropertySet (p : Str) (requireFallback : Bool) (c : VtableMember) : WalkStep := fun w =>
  match c.entry.setter with
  | some _ =>
    let r := w.invoke env p requireFallback m.path (.set c.parent c.key)
    (r.1, if r.2.ret = .neg || r.2.error then .neg else r.2.ret)
  | none => if env.work w.log .read then (w, .pos) else (w, .neg)

/-- `if (r < 0) return bus_maybe_reply_error(m, r, &error);` behind a function that is neither
refused nor taken as an answer otherwise. -/
def orReplyError (f next : WalkStep) : WalkStep := fun w =>
  let r := f w
  if r.2 = .neg then busMaybeReplyError env m .neg false r.1 else next r.1

def propertyGetRun (p : Str) (requireFallback : Bool) (c : VtableMember) : WalkStep :=
  working env .openContainer <|
    orReplyError env m (invokePropertyGet env p requireFallback m.path c.parent c.entry) <|
    unlessModified <| working env .closeContainer <| sendReply env m

def propertySetRun (p : Str) (requireFallback : Bool) (c : VtableMember) : WalkStep := fun w =>
  if !c.entry.isWritable then replyMethod env m .methodError w
  else if c.lastIteration = wb.iterationCounter then (w, .zero)
  else
    let w := w.markMember .property c.key wb.iterationCounter
    match m.peekType with
    | none => (w, .neg)
    | some (type, contents) =>
      if type ≠ sdBusTypeVariant || contents ≠ c.entry.signature then replyMethod env m .methodError w
      else working env .enterContainer (checkAccess env wb m c
        (orReplyError env m (invokePropertySet env m p requireFallback c) <|
          unlessModified <| working env .exitContainer <| sendReply env m)) w

def propertyGetSetCallbacksRun (p : Str) (requireFallback isGet : Bool) (c : VtableMember) :
    WalkStep := fun w =>
  if requireFallback && !(w.bus.slot c.parent).isFallback then (w, .zero)
  else withUserdata env m p requireFallback c.parent
    (working env .newMethodReturn <|
      if isGet then propertyGetRun env m p requireFallback c
      else propertySetRun env wb m p requireFallback c) w

def vtableAppendAllProperties (p : Str) (requireFallback : Bool) (served : Str) (s : Nat) :
    List VtableEntry → WalkStep
  | [] => fun w => (w, .pos)
  | e :: es =>
    if e.kind = some .property && !hasFlag e.flags sdBusVtableHidden &&
        !hasFlag e.flags sdBusVtablePropertyExplicit then
      working env .openContainer fun w =>
        let r := invokePropertyGet env p requireFallback served s e w
        if r.2 = .neg then r
        else unlessModified (working env .closeContainer
          (vtableAppendAllProperties p requireFallback served s es)) r.1
    else vtableAppendAllProperties p requireFallback served s es

def appendProperties (p : Str) (requireFallback : Bool) (served : Str) (s : Nat) : WalkStep :=
  fun w =>
    if hasFlag (w.bus.slot s).vtable.flags sdBusVtableHidden then (w, .pos)
    else vtableAppendAllProperties env p requireFallback served s (w.bus.slot s).vtable.entries w

/-- `property_get_all_callbacks_run` behind its loop. -/
def getAllFinish (foundInterface : Bool) : WalkStep := fun w =>
  if !w.found then (w, .zero)
  else if !foundInterface then
    let r := replyMethod env m .methodError w
    if r.2 = .neg then r else (r.1, .pos)
  else working env .closeContainer (sendReply env m) w

def getAllLoop (p : Str) (requireFallback : Bool) (iface : Option Str) :
    List Nat → Bool → WalkStep
  | [], foundInterface => getAllFinish env m foundInterface
  | s :: l, foundInterface => fun w =>
    if requireFallback && !(w.bus.slot s).isFallback then
      getAllLoop p requireFallback iface l foundInterface w
    else
      let u := nodeVtableGetUserdata env p requireFallback m.path s w
      if u.2 = .neg then busMaybeReplyError env m .neg false u.1
      else unlessModified (fun w =>
        if u.2 = .zero then getAllLoop p requireFallback iface l foundInterface w
        else if iface.isSome && iface ≠ some (w.bus.slot s).interface then
          getAllLoop p requireFallback iface l foundInterface w.setFound
        else orReplyError env m (appendProperties env p requireFallback m.path s)
          (unlessModified (getAllLoop p requireFallback iface l true)) w.setFound) u.1

def propertiesInterface : Str := str "org.freedesktop.DBus.Properties"
def introspectableInterface : Str := str "org.freedesktop.DBus.Introspectable"
def peerInterface : Str := str "org.freedesktop.DBus.Peer"
def objectManagerInterface : Str := str "org.freedesktop.DBus.ObjectManager"

def propertyGetAllCallbacksRun (p : Str) (requireFallback : Bool) (iface : Option Str)
    (first : List Nat) : WalkStep :=
  working env .newMethodReturn <| working env .openContainer <|
    getAllLoop env m p requireFallback iface first
      (iface = none || iface = some propertiesInterface || iface = some peerInterface ||
        iface = some introspectableInterface)

/-! ## Which objects there are -/

def nodeExistsLoop (p : Str) (requireFallback : Bool) : List Nat → WalkStep
  | [] => fun w => (w, .zero)
  | s :: l => fun w =>
    if requireFallback && !(w.bus.slot s).isFallback then nodeExistsLoop p requireFallback l w
    else WalkStep.seq (nodeVtableGetUserdata env p requireFallback m.path s)
      (unlessModified (nodeExistsLoop p requireFallback l)) w

def busNodeExists (p : Str) (requireFallback : Bool) (n : Nat) : WalkStep := fun w =>
  let x := w.bus.node n
  if !requireFallback && (!(x.attached .enumerator).isEmpty || !(x.attached .objectManager).isEmpty)
  then (w, .pos)
  else if (x.attached .callback).any fun k => !requireFallback || (w.bus.slot k).isFallback then
    (w, .pos)
  else nodeExistsLoop env m p requireFallback (x.attached .vtable) w

def objectPathStartswith (a b : Str) : Bool :=
  objectPathIsValid a && objectPathIsValid b &&
    (b = rootPath || (b.isPrefixOf a && (a.length = b.length || charAt a b.length = charSlash)))

def addEnumeratedToSet (p : Str) (requireFallback : Bool) (served : Str) :
    List Nat → List Str → Walk → (Walk × Ret) × List Str
  | [], set, w => ((w, .zero), set)
  | s :: l, set, w =>
    if w.bus.nodesModified then ((w, .zero), set)
    else
      let r := w.invoke env p requireFallback served (.enumerator s)
      if r.2.ret = .neg || r.2.error || !r.2.children.all objectPathIsValid then
        ((r.1, .neg), set)
      else addEnumeratedToSet p requireFallback served l
        (set ∪ r.2.children.filter fun k => objectPathStartswith k served) r.1

def addChildrenToSet (served : Str) (recursive : Bool)
    (subtree : Nat → List Str → Walk → (Walk × Ret) × List Str) :
    List Nat → List Str → Walk → (Walk × Ret) × List Str
  | [], set, w => ((w, .zero), set)
  | i :: l, set, w =>
    if !objectPathStartswith (w.bus.node i).path served then
      addChildrenToSet served recursive subtree l set w
    else
      let set := set ∪ [(w.bus.node i).path]
      if recursive && ((w.bus.node i).attached .objectManager).isEmpty then
        let r := subtree i set w
        if r.1.2 = .neg || r.1.1.bus.nodesModified then r
        else addChildrenToSet served recursive subtree l r.2 r.1.1
      else addChildrenToSet served recursive subtree l set w

def addSubtreeToSet (p : Str) (requireFallback : Bool) (served : Str) (recursive : Bool) :
    Nat → Nat → List Str → Walk → (Walk × Ret) × List Str
  | 0, _, set, w => ((w, .neg), set)
  | fuel + 1, n, set, w =>
    let r := addEnumeratedToSet env p requireFallback served ((w.bus.node n).attached .enumerator)
      set w
    if r.1.2 = .neg || r.1.1.bus.nodesModified then r
    else addChildrenToSet served recursive
      (addSubtreeToSet p requireFallback served recursive fuel) (r.1.1.bus.node n).child r.2 r.1.1

def getChildNodes (p : Str) (requireFallback : Bool) (n : Nat) (recursive : Bool) (w : Walk) :
    (Walk × Ret) × List Str :=
  addSubtreeToSet env p requireFallback m.path recursive (w.bus.nNodes + 1) n [] w

def introspectFinish (p : Str) (requireFallback : Bool) (n : Nat) (empty : Bool) : WalkStep :=
  let answer : WalkStep := fun w => working env .introspect (sendReply env m) w.setFound
  if empty then fun w =>
    let r := busNodeExists env m p requireFallback n w
    if r.2 = .pos then unlessModified answer r.1 else busMaybeReplyError env m r.2 false r.1
  else answer

def introspectLoop (p : Str) (requireFallback : Bool) (n : Nat) : List Nat → Bool → WalkStep
  | [], empty => introspectFinish env m p requireFallback n empty
  | s :: l, empty => fun w =>
    if requireFallback && !(w.bus.slot s).isFallback then
      introspectLoop p requireFallback n l empty w
    else
      let u := nodeVtableGetUserdata env p requireFallback m.path s w
      if u.2 = .neg then busMaybeReplyError env m .neg false u.1
      else unlessModified (fun w =>
        if u.2 = .zero then introspectLoop p requireFallback n l empty w
        else if hasFlag (w.bus.slot s).vtable.flags sdBusVtableHidden then
          introspectLoop p requireFallback n l false w
        else working env .introspect (introspectLoop p requireFallback n l false) w) u.1

def processIntrospect (p : Str) (requireFallback : Bool) (n : Nat) : WalkStep := fun w =>
  let r := getChildNodes env m p requireFallback n false w
  if r.1.2 = .neg then busMaybeReplyError env m .neg false r.1.1
  else unlessModified (working env .introspect fun w =>
    introspectLoop env m p requireFallback n (w.bus.vtables n) r.2.isEmpty w) r.1.1

def serializeLoop (p : Str) (requireFallback : Bool) (served : Str) : List Nat → WalkStep
  | [] => working env .closeContainer fun w => (w, .pos)
  | s :: l => fun w =>
    if requireFallback && !(w.bus.slot s).isFallback then serializeLoop p requireFallback served l w
    else
      let u := nodeVtableGetUserdata env p requireFallback served s w
      if u.2 = .neg then u
      else unlessModified (fun w =>
        if u.2 = .zero then serializeLoop p requireFallback served l w
        else working env .openContainer (fun w =>
          let r := appendProperties env p requireFallback served s w
          if r.2 = .neg then r
          else unlessModified (serializeLoop p requireFallback served l) r.1) w) u.1

def objectManagerSerializePath (p : Str) (requireFallback : Bool) (served : Str) : WalkStep :=
  fun w =>
    match w.bus.getNode p with
    | none => (w, .zero)
    | some n => serializeLoop env p requireFallback served (w.bus.vtables n) w

def serializeFallbacks (served : Str) : List Str → WalkStep
  | [] => fun w => (w, .zero)
  | p :: l => fun w =>
    let r := objectManagerSerializePath env p true served w
    if r.2 = .neg then r else unlessModified (serializeFallbacks served l) r.1

def serializePathAndFallbacks (served : Str) : WalkStep := fun w =>
  let r := objectManagerSerializePath env served false served w
  if r.2 = .neg then r
  else unlessModified (serializeFallbacks env served (objectPathPrefixes served)) r.1

def managedObjectsLoop : List Str → WalkStep
  | [] => working env .closeContainer (sendReply env m)
  | p :: l => orReplyError env m (serializePathAndFallbacks env p)
    (unlessModified (managedObjectsLoop l))

def processGetManagedObjects (p : Str) (requireFallback : Bool) (n : Nat) : WalkStep := fun w =>
  if requireFallback || ((w.bus.node n).attached .objectManager).isEmpty then (w, .zero)
  else
    let r := getChildNodes env m p requireFallback n true w
    if r.1.2 = .neg then busMaybeReplyError env m .neg false r.1.1
    else unlessModified (working env .newMethodReturn <| working env .openContainer <|
      managedObjectsLoop env m (env.setOrder r.2)) r.1.1

/-- The end of `object_find_and_run`: is there an object at all? -/
def existsRun (p : Str) (requireFallback : Bool) (n : Nat) : WalkStep := fun w =>
  if w.found then (w, .zero)
  else
    let r := busNodeExists env m p requireFallback n w
    if r.2 = .neg then busMaybeReplyError env m .neg false r.1
    else unlessModified (fun w => (if r.2 = .pos then w.setFound else w, .zero)) r.1

/-- The property part of `object_find_and_run`; `next` is what follows unless it returns. -/
def propertiesRun (p : Str) (requireFallback : Bool) (n : Nat) (next : WalkStep) : WalkStep :=
  if m.member = str "Get" || m.member = str "Set" then
    working env .rewind fun w =>
      match m.readStringString with
      | none => replyMethod env m .methodError w
      | some (iface, member) =>
        match Table.get VtableMember.key (w.bus.members .property) (p, iface, member) with
        | none => next w
        | some c => WalkStep.seq
          (propertyGetSetCallbacksRun env wb m p requireFallback (m.member = str "Get") c) next w
  else if m.member = str "GetAll" then
    working env .rewind fun w =>
      match m.readString with
      | none => replyMethod env m .methodError w
      | some iface => WalkStep.seq
        (propertyGetAllCallbacksRun env m p requireFallback
          (if iface.isEmpty then none else some iface) (w.bus.vtables n)) next w
  else next

def builtinRun (p : Str) (requireFallback : Bool) (n : Nat) (next : WalkStep) : WalkStep :=
  if m.interface = some propertiesInterface then propertiesRun env wb m p requireFallback n next
  else if m.interface = some introspectableInterface && m.member = str "Introspect" then
    if !m.signature.isEmpty then replyMethod env m .methodError
    else WalkStep.seq (processIntrospect env m p requireFallback n) next
  else if m.interface = some objectManagerInterface && m.member = str "GetManagedObjects" then
    if !m.signature.isEmpty then replyMethod env m .methodError
    else WalkStep.seq (processGetManagedObjects env m p requireFallback n) next
  else next

def membersRun (p : Str) (requireFallback : Bool) (n : Nat) : WalkStep := fun w =>
  let builtin := builtinRun env wb m p requireFallback n
    (unlessModified (existsRun env m p requireFallback n))
  match m.interface with
  | none => (w, .zero)
  | some iface =>
    match Table.get VtableMember.key (w.bus.members .method) (p, iface, m.member) with
    | none => builtin w
    | some c =>
      WalkStep.seq (methodCallbacksRun env wb m p requireFallback c) (unlessModified builtin) w

def Walk.consult (w : Walk) (p : Str) (requireFallback : Bool) : Walk :=
  { w with pass := w.pass ++ [(p, requireFallback)] }

def objectFindAndRun (p : Str) (requireFallback : Bool) : WalkStep := fun w =>
  match w.bus.getNode p with
  | none => (w.consult p requireFallback, .zero)
  | some n => WalkStep.seq
    (nodeCallbacksRun env wb m p requireFallback ((w.bus.node n).attached .callback))
    (unlessModified (membersRun env wb m p requireFallback n)) (w.consult p requireFallback)

def prefixesRun : List Str → WalkStep
  | [] => fun w => (w, .zero)
  | p :: l => unlessModified (WalkStep.seq (objectFindAndRun env wb m p true) (prefixesRun l))

def Walk.newPass (w : Walk) : Walk :=
  { w with
    bus := { w.bus with nodesModified := false }
    earlier := w.earlier ++ [w.pass]
    pass := [] }

def walkPass : WalkStep := fun w =>
  WalkStep.seq (objectFindAndRun env wb m m.path false)
    (prefixesRun env wb m (objectPathPrefixes m.path)) w.newPass

def walkFinish : WalkStep := fun w =>
  if !w.found then (w, .zero)
  else
    let r := replyMethod env m .methodError w
    if r.2 = .neg then r else (r.1, .pos)

/-- The passes, as many as there is fuel for; nothing is returned if that was not enough. -/
def walkLoop : Nat → Walk → Walk × Option Ret
  | 0, w => (w, none)
  | fuel + 1, w =>
    let r := walkPass env wb m w
    if r.2 ≠ .zero then (r.1, some r.2)
    else if r.1.bus.nodesModified then walkLoop fuel r.1
    else ((walkFinish env m r.1).1, some (walkFinish env m r.1).2)

def busProcessObject (fuel : Nat) (b : ObjBus) : Walk × Option Ret :=
  if wb.isMonitor || !m.isMethodCall || b.nodes.isEmpty || (wb.busClient && !m.hasDestination) then
    ({ bus := b }, some .zero)
  else walkLoop env wb m fuel { bus := b }

end

end Basu
