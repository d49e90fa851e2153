import Basu.Introspect.Xml
import Mathlib.Data.BitVec

/-! `parse_xml_introspect`: introspection data, read token by token. The calls of `parse_xml_node`
and `parse_xml_annotation` that are under way make a stack; a token moves the stack and names an
update of the context. -/

namespace Basu.Introspect
open Lib

def nodeDepthMax : Nat := 16

def vtableDeprecated : BitVec 64 := 0x1
def vtableMethodNoReply : BitVec 64 := 0x8
def vtablePropertyConst : BitVec 64 := 0x10
def vtablePropertyEmitsChange : BitVec 64 := 0x20
def vtablePropertyEmitsInvalidation : BitVec 64 := 0x40

structure Context where
  interfaceName : Option Str := none
  interfaceFlags : BitVec 64 := 0
  memberName : Option Str := none
  memberSignature : Option Str := none
  memberResult : Option Str := none
  memberFlags : BitVec 64 := 0
  memberWritable : Bool := false
  deriving DecidableEq

def contextResetMember (c : Context) : Context :=
  { c with
    memberName := none
    memberSignature := none
    memberResult := none
    memberFlags := 0
    memberWritable := false }

def contextResetInterface (c : Context) : Context :=
  contextResetMember { c with interfaceName := none, interfaceFlags := 0 }

inductive Flags
  | interface | member
  deriving DecidableEq

inductive Update
  | keep
  | interfaceName (name : Str)
  | memberName (name : Str)
  | emitsChange
  | extendSignature (type : Str)
  | extendResult (type : Str)
  | setSignature (type : Str)
  | writable
  | annotate (flags : Flags) (field value : Option Str)
  | leaveNode (path : Str)
  | closeInterface | closeMethod | closeSignal | closeProperty
  deriving DecidableEq

def annotated (flags : BitVec 64) (field value : Option Str) : BitVec 64 :=
  if field = some (str "org.freedesktop.DBus.Deprecated") then
    if value = some (str "true") then flags ||| vtableDeprecated else flags
  else if field = some (str "org.freedesktop.DBus.Method.NoReply") then
    if value = some (str "true") then flags ||| vtableMethodNoReply else flags
  else if field = some (str "org.freedesktop.DBus.Property.EmitsChangedSignal") then
    if value = some (str "const") then
      (flags &&& ~~~(vtablePropertyEmitsInvalidation ||| vtablePropertyEmitsChange)) |||
        vtablePropertyConst
    else if value = some (str "invalidates") then
      (flags &&& ~~~(vtablePropertyEmitsChange ||| vtablePropertyConst)) |||
        vtablePropertyEmitsInvalidation
    else if value = some (str "false") then
      flags &&& ~~~(vtablePropertyEmitsChange ||| vtablePropertyConst |||
        vtablePropertyEmitsInvalidation)
    else flags
  else flags

def strextend (x : Option Str) (s : Str) : Option Str := some (x.getD [] ++ s)

def Context.update (c : Context) : Update → Context
  | .keep | .leaveNode _ => c
  | .interfaceName name => { c with interfaceName := some name }
  | .memberName name => { c with memberName := some name }
  | .emitsChange => { c with memberFlags := c.memberFlags ||| vtablePropertyEmitsChange }
  | .extendSignature type => { c with memberSignature := strextend c.memberSignature type }
  | .extendResult type => { c with memberResult := strextend c.memberResult type }
  | .setSignature type => { c with memberSignature := some type }
  | .writable => { c with memberWritable := true }
  | .annotate .interface field value =>
    { c with interfaceFlags := annotated c.interfaceFlags field value }
  | .annotate .member field value => { c with memberFlags := annotated c.memberFlags field value }
  | .closeInterface => contextResetInterface c
  | .closeMethod | .closeSignal | .closeProperty => contextResetMember c

inductive Call
  | onPath (path : Str)
  | onInterface (name : Option Str) (flags : BitVec 64)
  | onMethod (interface name signature result : Option Str) (flags : BitVec 64)
  | onSignal (interface name signature : Option Str) (flags : BitVec 64)
  | onProperty (interface name signature : Option Str) (writable : Bool) (flags : BitVec 64)
  deriving DecidableEq

def Context.call (c : Context) : Update → Option Call
  | .leaveNode path => some (.onPath path)
  | .closeInterface => some (.onInterface c.interfaceName c.interfaceFlags)
  | .closeMethod =>
    some (.onMethod c.interfaceName c.memberName c.memberSignature c.memberResult c.memberFlags)
  | .closeSignal =>
    some (.onSignal c.interfaceName c.memberName c.memberSignature c.memberFlags)
  | .closeProperty => some (.onProperty c.interfaceName c.memberName c.memberSignature
      c.memberWritable c.memberFlags)
  | _ => none

/-- A callback of the client, if it has one: what it answers to the calls made so far, the last of
which is its own. -/
abbrev Callback := Option (List Call → Option Errno)

structure XMLIntrospectOps where
  onPath : Callback
  onInterface : Callback
  onMethod : Callback
  onSignal : Callback
  onProperty : Callback

def XMLIntrospectOps.callback (ops : XMLIntrospectOps) : Call → Callback
  | .onPath _ => ops.onPath
  | .onInterface .. => ops.onInterface
  | .onMethod .. => ops.onMethod
  | .onSignal .. => ops.onSignal
  | .onProperty .. => ops.onProperty

def XMLIntrospectOps.invoke (ops : XMLIntrospectOps) (calls : List Call) :
    Option Call → Except Errno (List Call)
  | none => .ok calls
  | some call =>
    match ops.callback call with
    | none => .ok calls
    | some f =>
      match f (calls ++ [call]) with
      | some r => .error r
      | none => .ok (calls ++ [call])

/-! ## `parse_xml_annotation` -/

/-- The branches that the states of an element share: an attribute, a tag inside it, its end and white
space. -/
def elementTurn {τ : Type*} (tag : String) (attr opens : Str → Except Errno τ) (close stay : τ) :
    XmlToken → Except Errno τ
  | .attributeName name => attr name
  | .tagOpen name => opens name
  | .tagCloseEmpty => .ok close
  | .tagClose name => if name = str tag then .ok close else .error .einval
  | .text name => if name.all isXmlSpace then .ok stay else .error .einval
  | .attributeValue _ => .error .einval

def valueTurn {τ : Type*} (take : Str → τ) : XmlToken → Except Errno τ
  | .attributeValue value => .ok (take value)
  | _ => .error .einval

inductive AnnotationState
  | element | name | value
  deriving DecidableEq

structure AnnotationFrame where
  flags : Option Flags
  state : AnnotationState := .element
  field : Option Str := none
  value : Option Str := none
  deriving DecidableEq

inductive AnnotationTurn
  | next (a : AnnotationFrame)
  | leave

def annotationTurn (a : AnnotationFrame) : XmlToken → Except Errno AnnotationTurn :=
  match a.state with
  | .element => elementTurn "annotation"
      (fun name =>
        if name = str "name" then .ok (.next { a with state := .name })
        else if name = str "value" then .ok (.next { a with state := .value })
        else .error .ebadmsg)
      (fun _ => .error .einval) .leave (.next a)
  | .name => valueTurn fun v => .next { a with field := some v, state := .element }
  | .value => valueTurn fun v => .next { a with value := some v, state := .element }

/-! ## `parse_xml_node` -/

inductive NodeState
  | node | nodeName
  | interface | interfaceName
  | method | methodName | methodArg | methodArgName | methodArgType | methodArgDirection
  | signal | signalName | signalArg | signalArgName | signalArgType | signalArgDirection
  | property | propertyName | propertyType | propertyAccess
  deriving DecidableEq

structure NodeFrame where
  pathPrefix : Str
  state : NodeState := .node
  nodePath : Option Str := none
  argumentType : Option Str := none
  argumentDirection : Option Str := none
  deriving DecidableEq

def NodeFrame.np (f : NodeFrame) : Str := f.nodePath.getD f.pathPrefix

def joinNodePath (pathPrefix name : Str) : Str :=
  if charAt name 0 = charSlash then name
  else if pathPrefix.getLast? = some charSlash then pathPrefix ++ name
  else pathPrefix ++ [charSlash] ++ name

inductive NodeTurn
  | next (f : NodeFrame) (u : Update)
  | nested
  | annotate (flags : Option Flags)
  | leave

def NodeFrame.goto (f : NodeFrame) (state : NodeState) (u : Update) : NodeTurn :=
  .next { f with state := state } u

def NodeFrame.attr (f : NodeFrame) (names : List (String × NodeState)) (name : Str) :
    Except Errno NodeTurn :=
  match names.find? fun x => str x.1 == name with
  | some x => .ok (f.goto x.2 .keep)
  | none => .error .ebadmsg

def NodeFrame.methodArgument (f : NodeFrame) : Update :=
  match f.argumentType with
  | none => .keep
  | some type =>
    if f.argumentDirection = none ∨ f.argumentDirection = some (str "in") then .extendSignature type
    else if f.argumentDirection = some (str "out") then .extendResult type
    else .keep

def NodeFrame.signalArgument (f : NodeFrame) : Update :=
  match f.argumentType with
  | none => .keep
  | some type =>
    if f.argumentDirection = none ∨ f.argumentDirection = some (str "out") then .extendSignature type
    else .keep

def nodeTurn (depth : Nat) (f : NodeFrame) : XmlToken → Except Errno NodeTurn :=
  let own (u : Update) : Update := if depth = 0 then u else .keep
  match f.state with
  | .node => elementTurn "node" (f.attr [("name", .nodeName)])
      (fun name =>
        if name = str "interface" then .ok (f.goto .interface .keep)
        else if name = str "node" then .ok .nested
        else .error .ebadmsg)
      .leave (f.goto .node .keep)
  | .nodeName => valueTurn fun v =>
      .next { f with nodePath := some (joinNodePath f.pathPrefix v), state := .node } .keep
  | .interface => elementTurn "interface" (f.attr [("name", .interfaceName)])
      (fun name =>
        if name = str "method" then .ok (f.goto .method .keep)
        else if name = str "signal" then .ok (f.goto .signal .keep)
        else if name = str "property" then .ok (f.goto .property .emitsChange)
        else if name = str "annotation" then .ok (.annotate (some .interface))
        else .error .einval)
      (f.goto .node (own .closeInterface)) (f.goto .interface .keep)
  | .interfaceName => valueTurn fun v => f.goto .interface (own (.interfaceName v))
  | .method => elementTurn "method" (f.attr [("name", .methodName)])
      (fun name =>
        if name = str "arg" then .ok (f.goto .methodArg .keep)
        else if name = str "annotation" then .ok (.annotate (some .member))
        else .error .einval)
      (f.goto .interface (own .closeMethod)) (f.goto .method .keep)
  | .methodName => valueTurn fun v => f.goto .method (own (.memberName v))
  | .methodArg => elementTurn "arg"
      (f.attr [("name", .methodArgName), ("type", .methodArgType),
        ("direction", .methodArgDirection)])
      (fun name =>
        if name = str "annotation" then .ok (.annotate none) else .error .einval)
      (if depth = 0 then
        .next { f with argumentType := none, argumentDirection := none, state := .method }
          f.methodArgument
      else f.goto .method .keep)
      (f.goto .methodArg .keep)
  | .methodArgName => valueTurn fun _ => f.goto .methodArg .keep
  | .methodArgType => valueTurn fun v =>
      .next { f with argumentType := some v, state := .methodArg } .keep
  | .methodArgDirection => valueTurn fun v =>
      .next { f with argumentDirection := some v, state := .methodArg } .keep
  | .signal => elementTurn "signal" (f.attr [("name", .signalName)])
      (fun name =>
        if name = str "arg" then .ok (f.goto .signalArg .keep)
        else if name = str "annotation" then .ok (.annotate (some .member))
        else .error .einval)
      (f.goto .interface (own .closeSignal)) (f.goto .signal .keep)
  | .signalName => valueTurn fun v => f.goto .signal (own (.memberName v))
  | .signalArg => elementTurn "arg"
      (f.attr [("name", .signalArgName), ("type", .signalArgType),
        ("direction", .signalArgDirection)])
      (fun name =>
        if name = str "annotation" then .ok (.annotate none) else .error .einval)
      -- the depth is not asked for here, and the direction stays for the next argument
      (.next { f with argumentType := none, state := .signal } f.signalArgument)
      (f.goto .signalArg .keep)
  | .signalArgName => valueTurn fun _ => f.goto .signalArg .keep
  | .signalArgType => valueTurn fun v =>
      .next { f with argumentType := some v, state := .signalArg } .keep
  | .signalArgDirection => valueTurn fun v =>
      .next { f with argumentDirection := some v, state := .signalArg } .keep
  | .property => elementTurn "property"
      (f.attr [("name", .propertyName), ("type", .propertyType), ("access", .propertyAccess)])
      (fun name =>
        if name = str "annotation" then .ok (.annotate (some .member)) else .error .einval)
      (f.goto .interface (own .closeProperty)) (f.goto .property .keep)
  | .propertyName => valueTurn fun v => f.goto .property (own (.memberName v))
  | .propertyType => valueTurn fun v => f.goto .property (own (.setSignature v))
  | .propertyAccess => valueTurn fun v =>
      f.goto .property (if v = str "readwrite" ∨ v = str "write" then .writable else .keep)

/-! ## `parse_xml_introspect` -/

/-- The calls under way: of `parse_xml_node`, the innermost first, and of `parse_xml_annotation`. -/
structure Control where
  annotating : Option AnnotationFrame := none
  nodes : List NodeFrame := []
  deriving DecidableEq

def Control.enter (k : Control) (depth : Nat) (pathPrefix : Str) : Except Errno (Control × Update) :=
  if nodeDepthMax < depth then .error .einval
  else .ok ({ k with nodes := { pathPrefix := pathPrefix } :: k.nodes }, .keep)

/-- What the innermost call does with a token. `pathPrefix` is the argument of
`parse_xml_introspect`. -/
def Control.step (pathPrefix : Str) (k : Control) (t : XmlToken) : Except Errno (Control × Update) :=
  match k.annotating with
  | some a =>
    match annotationTurn a t with
    | .error r => .error r
    | .ok (.next a) => .ok ({ k with annotating := some a }, .keep)
    | .ok .leave => .ok ({ k with annotating := none },
        match a.flags with
        | some flags => .annotate flags a.field a.value
        | none => .keep)
  | none =>
    match k.nodes with
    | [] =>
      match t with
      | .tagOpen name => if name = str "node" then k.enter 0 pathPrefix else .error .ebadmsg
      | .text name => if name.all isXmlSpace then .ok (k, .keep) else .error .ebadmsg
      | _ => .error .ebadmsg
    | f :: fs =>
      match nodeTurn fs.length f t with
      | .error r => .error r
      | .ok (.next f u) => .ok ({ k with nodes := f :: fs }, u)
      | .ok .nested => k.enter (fs.length + 1) f.np
      | .ok (.annotate flags) => .ok ({ k with annotating := some { flags := flags } }, .keep)
      | .ok .leave => .ok ({ k with nodes := fs }, .leaveNode f.np)

structure Parser where
  control : Control := {}
  context : Context := {}
  calls : List Call := []

def Parser.step (ops : XMLIntrospectOps) (pathPrefix : Str) (p : Parser) (t : XmlToken) :
    Except Errno Parser :=
  match p.control.step pathPrefix t with
  | .error r => .error r
  | .ok (k, u) =>
    match ops.invoke p.calls (p.context.call u) with
    | .error r => .error r
    | .ok calls => .ok { control := k, context := p.context.update u, calls := calls }

def parseXmlIntrospect (ops : XMLIntrospectOps) (pathPrefix xml : Str) : Except Errno (List Call) :=
  let (ts, r) := xmlTokens xml .null
  match ts.foldlM (Parser.step ops pathPrefix) {} with
  | .error r => .error r
  | .ok p =>
    match r with
    | some r => .error r
    | none => if p.control = {} then .ok p.calls else .error .ebadmsg

end Basu.Introspect
