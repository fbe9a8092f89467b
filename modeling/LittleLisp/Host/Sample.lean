/-
# A sample embedding program

An embedding program that uses every part of the interface between the language and
its host: a counter with state, a kit of methods for every parameter and result type,
a table of methods, a gadget that answers look-ups itself, and a few functions. It is
what embeddings are tried out with.

Key definitions: `Sample.State`, `Sample.host`, `Sample.furnish`.
-/
import LittleLisp.Host.Method
import LittleLisp.Session

namespace LittleLisp

namespace Sample

/-- The state of the sample program. -/
structure State where
  /-- The total of the counter. -/
  total : Float
  /-- How often `tick` was called. -/
  ticks : Nat
  /-- The last number given to a host value. -/
  handles : Nat

/-- The state at the start. -/
def State.initial : State := ⟨0, 0, 0⟩

/-! ### Types and values -/

/-- The type of the counter. -/
def counterType : HostType := .pointer "main.Counter"

/-- The type of the kit. -/
def kitType : HostType := .struct "main.Kit"

/-- The type of points. -/
def pointType : HostType := .struct "main.Point"

/-- The type of things with a name. -/
def namedType : HostType := .struct "main.Named"

/-- The type of gadgets. -/
def gadgetType : HostType := .struct "main.Gadget"

/-- The type of method tables. -/
def tableType : HostType := .table "lisp.Methods"

/-- The type of the entries of a method table. -/
def methodType : HostType := .struct "lisp.Method"

/-- The type of labels. -/
def tagType : HostType := .string "main.Tag"

/-- The type of lists of integers. -/
def intsType : HostType := .slice .int

/-- The counter. -/
def counter : Handle := ⟨counterType, 0⟩

/-- The kit. -/
def kit : Handle := ⟨kitType, 0⟩

/-- The point of the module's bindings, as opposed to the points that the kit makes. -/
def point : Handle := ⟨pointType, 0⟩

/-- The named thing of the module's bindings, as opposed to those that the kit makes. -/
def named : Handle := ⟨namedType, 0⟩

/-- The method table. -/
def table : Handle := ⟨tableType, 0⟩

/-- The gadget of a step; gadgets of the same step are the same. -/
def gadget (step : Nat) : Handle := ⟨gadgetType, step⟩

/-- The first coordinate of a point. -/
def abscissa (h : Handle) : Int := if h.id = point.id then 7 else 1

/-- The name of a named thing. -/
def nameOf (h : Handle) : Text := if h.id = named.id then "bob" else "n"

/-- The text of a named thing. -/
def namedText (h : Handle) : Text := Text.concat ["<named ", nameOf h, ">"]

/-! ### The method table -/

/-- A method that counts its arguments. -/
def counting (params : List Rule) (rest : Option Rule) : Method State :=
  ⟨true, ⟨params, rest⟩, some fun args s => .done s (.number (Number.ofNat args.length))⟩

/-- A method that multiplies its argument; what is no number counts as zero. -/
def scaling (factor : Float) : Method State :=
  ⟨true, ⟨[.number], none⟩, some fun args s =>
    match args with
    | [] => .done s .absent
    | v :: _ => .done s (.number (v.number?.getD 0 * factor))⟩

/-- The methods of the table. -/
def tableMethods : Bindings (Method State) :=
  [ ("Ping", ⟨true, ⟨[], none⟩, some fun _ s => .done s (.string "pong")⟩),
    ("Secret", ⟨false, ⟨[], none⟩, some fun _ s => .done s (.string "leak")⟩),
    ("NoFn", ⟨true, ⟨[], none⟩, none⟩),
    ("RetNil", ⟨true, ⟨[], none⟩, some fun _ s => .done s .absent⟩),
    ("Twice", scaling 2),
    ("Any", counting [.any] none),
    ("Number", counting [.number] none),
    ("String", counting [.string] none),
    ("Bool", counting [.bool] none),
    ("List", counting [.list] none),
    ("Map", counting [.map] none),
    ("Object", counting [.object] none),
    ("Mixed", counting [.string, .number] (some .bool)),
    ("Rest", counting [] (some .any)) ]

/-- The methods of a gadget. -/
def gadgetMethods (step : Nat) : Bindings (Method State) :=
  [ ("Spin", scaling (Number.ofNat step)),
    ("Stop", ⟨false, ⟨[], none⟩, some fun _ s => .done s .absent⟩) ]

/-- The entries of a table as host values: new ones for each table. -/
def tableEntries (h : Handle) : List (Text × Handle) :=
  tableMethods.mapIdx fun i m => (m.1, ⟨methodType, h.id * tableMethods.length + i⟩)

/-! ### Methods of host types -/

/-- What a method of a host type does. -/
abbrev Body := List HostValue → State → Script State (Except Text (List HostValue))

/-- A method that returns one result and leaves the state alone. -/
def computing (params : List HostType) (result : HostType)
    (f : List HostValue → HostValue) : ReflectedMethod State :=
  ⟨⟨params, none, [result]⟩, fun _ args s => .done s (.ok [f args])⟩

/-- A method that returns its argument. -/
def echoing (t : HostType) : ReflectedMethod State :=
  computing [t] t fun args => args.head?.getD .nothing

/-- A method without parameters that returns the same every time. -/
def constant (results : List HostType) (values : List HostValue) : ReflectedMethod State :=
  ⟨⟨[], none, results⟩, fun _ _ s => .done s (.ok values)⟩

/-- A method without parameters that returns a new host value every time. -/
def making (t : HostType) : ReflectedMethod State :=
  ⟨⟨[], none, [t]⟩, fun _ _ s =>
    let s := { s with handles := s.handles + 1 }
    .done s (.ok [.handle ⟨t, s.handles⟩])⟩

/-- A method of some parameters without results. -/
def acting (params : List HostType) (body : Body) : ReflectedMethod State :=
  ⟨⟨params, none, []⟩, fun _ args s => body args s⟩

/-- The text of a host string. -/
def textOf : HostValue → Text
  | .string t => t
  | _ => []

/-- The number of a host number. -/
def numberOf : HostValue → Float
  | .float x => x
  | .integer n => Number.ofInt n
  | _ => 0

/-- The integer of a host integer. -/
def integerOf : HostValue → Int
  | .integer n => n
  | _ => 0

/-- The methods of the counter. -/
def counterMethods : Bindings (ReflectedMethod State) :=
  [ ("Inc", ⟨⟨[.float64], none, [.float64]⟩, fun _ args s =>
      let s := { s with total := s.total + numberOf (args.head?.getD .nothing) }
      .done s (.ok [.float s.total])⟩),
    ("Reset", acting [] fun _ s => .done { s with total := 0 } (.ok [])),
    ("Sum", ⟨⟨[], some .int, [.int]⟩, fun _ args s =>
      let start := IntType.int.ofNumber s.total
      let sum := args.foldl (fun n a => IntType.int.wrap (n + integerOf a)) start
      .done s (.ok [.integer sum])⟩),
    ("Check", ⟨⟨[.float64], none, [.bool]⟩, fun _ args s =>
      if s.total > numberOf (args.head?.getD .nothing) then .done s (.error "over the limit")
      else .done s (.ok [.bool true])⟩),
    ("Label", computing [.text] .text fun args =>
      .string (textOf (args.head?.getD .nothing) ++ "-counter")),
    ("Last", ⟨⟨[], none, [.interface .any]⟩, fun _ _ s =>
      .done s (.ok [if s.total == 0 then .nothing else .float s.total])⟩) ]

/-- The methods of named things. -/
def namedMethods : Bindings (ReflectedMethod State) :=
  [ ("Name", ⟨⟨[], none, [.text]⟩, fun h _ s => .done s (.ok [.string (nameOf h)])⟩),
    ("String", ⟨⟨[], none, [.text]⟩, fun h _ s => .done s (.ok [.string (namedText h)])⟩) ]

/-- The results of a call with a list of things to join. -/
def joined : List HostValue → HostValue
  | .string sep :: parts => .string (Text.join sep (parts.map textOf))
  | _ => .string []

/-- What the methods of the kit with several parameters or effects do. -/
def joinList : List HostValue → HostValue
  | [sep, .list parts] => joined (sep :: parts)
  | _ => .string []

/-- Returns anything; a table is handed back as a new one. -/
def echoAny : Body
  | [.handle h], s =>
    if h.type = tableType then
      let s := { s with handles := s.handles + 1 }
      .done s (.ok [.handle ⟨tableType, s.handles⟩])
    else .done s (.ok [.handle h])
  | args, s => .done s (.ok [args.head?.getD .nothing])

/-- Calls a function of the language. -/
def callFunction : Body
  | .value (.function ref) :: args, s =>
    let values := args.map fun
      | .value v => v
      | _ => .absent
    .call s ref values fun s v => .done s (.ok [.value v])
  | _, s => .done s (.ok [.value .absent])

/-- The name of a function of the language. -/
def functionName : Body
  | [.value (.function ref)], s => .nameOf s ref fun t => .done s (.ok [.string t])
  | _, s => .done s (.ok [.string "no function"])

/-- The text of anything that has one. -/
def textOfAny : Body
  | [.value v], s => .print s v fun t => .done s (.ok [.string t])
  | [.handle h], s => .done s (.ok [.string (namedText h)])
  | _, s => .done s (.ok [.string "none"])

/-- Fails with a message of its own. -/
def failing : Body
  | [.string t], s => .raise s (.native t)
  | _, s => .raise s (.native [])

/-- Raises a fault at a position of its own. -/
def raising : Body
  | [.integer line, .integer column], s =>
    .raise s (.fault (.placed .malformed ⟨"host", line, column⟩ ["raised"]))
  | _, s => .raise s (.native [])

/-- The methods of the kit that take numbers. -/
def numberMethods : Bindings (ReflectedMethod State) :=
  [ ("I8", echoing (.integer (.signed .w8))),
    ("I16", echoing (.integer (.signed .w16))),
    ("I32", echoing (.integer (.signed .w32))),
    ("I64", echoing (.integer (.signed .w64))),
    ("U8", echoing (.integer (.unsigned .w8))),
    ("U16", echoing (.integer (.unsigned .w16))),
    ("U32", echoing (.integer (.unsigned .w32))),
    ("F32", echoing .float32),
    ("F64", echoing .float64) ]

/-- The methods of the kit that take texts. -/
def textMethods : Bindings (ReflectedMethod State) :=
  [ ("Str", echoing .text),
    ("Tagged", computing [tagType] tagType fun args =>
      .string ("tag:" ++ textOf (args.head?.getD .nothing))),
    ("Two", computing [.text, .float64] .text fun
      | [a, b] =>
        .string (Text.concat [textOf a, "/", Text.ofInt (IntType.int.ofNumber (numberOf b))])
      | _ => .string []),
    ("Cat", ⟨⟨[.text], some .text, [.text]⟩, fun _ args s => .done s (.ok [joined args])⟩),
    ("Join", computing [.text, .slice .text] .text joinList) ]

/-- The methods of the kit that take lists or maps. -/
def collectionMethods : Bindings (ReflectedMethod State) :=
  [ ("Bytes", echoing (.slice (.integer (.unsigned .w8)))),
    ("Grid", echoing (.slice intsType)),
    ("Arr", computing [.array 2 .int] .int fun
      | [.list (x :: _)] => x
      | _ => .integer 0),
    ("MapSI", computing [.map .text .int] .int size),
    ("MapVV", computing [.map .value .value] .int size),
    ("Count", computing [.slice .value] .int fun
      | [.list items] => .integer items.length
      | _ => .integer (-1)) ]
where
  /-- The size of a host map. -/
  size : List HostValue → HostValue
    | [.map entries] => .integer entries.length
    | _ => .integer 0

/-- The methods of the kit that take values of any other kind. -/
def otherMethods : Bindings (ReflectedMethod State) :=
  [ ("Echo", echoing .value),
    ("Any", ⟨⟨[.interface .any], none, [.interface .any]⟩, fun _ => echoAny⟩),
    ("Flip", computing [.bool] .bool fun
      | [.bool b] => .bool !b
      | _ => .bool true),
    ("Total", ⟨⟨[counterType], none, [.float64]⟩, fun _ args s =>
      match args with
      | [.handle _] => .done s (.ok [.float s.total])
      | _ => .done s (.ok [.float (-1)])⟩),
    ("PX", computing [pointType] .int fun
      | [.handle h] => .integer (abscissa h)
      | _ => .integer 0),
    ("Apply", ⟨⟨[.interface .callable], some .value, [.value]⟩, fun _ => callFunction⟩),
    ("FnName", ⟨⟨[.own .function], none, [.text]⟩, fun _ => functionName⟩),
    ("Thunk", computing [.function "func() int"] .bool fun _ => .bool true),
    ("Stringer", ⟨⟨[.interface .stringer], none, [.text]⟩, fun _ => textOfAny⟩) ]

/-- The methods of the kit that only return something, or fail. -/
def returningMethods : Bindings (ReflectedMethod State) :=
  [ ("Pair", constant [.int, .text] [.integer 1, .string "a"]),
    ("Triple", ⟨⟨[], none, [.float64, .bool]⟩, fun _ _ s =>
      .done s (.ok [.float 1.5, .bool true])⟩),
    ("TripleErr", ⟨⟨[], none, [.float64, .bool]⟩, fun _ _ s =>
      .done s (.error "triple failed")⟩),
    ("Only", ⟨⟨[.text], none, []⟩, fun _ args s =>
      match textOf (args.head?.getD .nothing) with
      | [] => .done s (.ok [])
      | message => .done s (.error message)⟩),
    ("Nothing", constant [.value] [.value .absent]),
    ("Err", constant [.own .error] [.value (.fail .argument ["from host"])]),
    ("Array", constant [.array 3 .int] [.list [.integer 1, .integer 2, .integer 3]]),
    ("Floats", constant [.slice .float32]
      [.list [.float (Number.toSingle 0.1), .float 0.5]]),
    ("Anys", constant [.slice (.interface .any)]
      [.list [.integer 1, .string "x", .nothing, .bool true, .list [.integer 2],
        .value (.keyword ":k")]]),
    ("MapRet", constant [.map .text .int]
      [.map [(.string "x", .integer 1), (.string "y", .integer 2)]]),
    ("MapBool", constant [.map .bool intsType]
      [.map [(.bool true, .list [.integer 1]), (.bool false, .list [])]]),
    ("Secret", constant [.text] [.string "leak"]) ]

/-- The methods of the kit that return objects or raise an alarm. -/
def objectMethods : Bindings (ReflectedMethod State) :=
  [ ("NilPtr", constant [counterType] [.nothing]),
    ("Ptr", constant [counterType] [.handle counter]),
    ("Point", making pointType),
    ("Named", making namedType),
    ("Table", making tableType),
    ("Gadget", constant [gadgetType] [.handle (gadget 10)]),
    ("Panic", acting [.text] failing),
    ("PanicErr", acting [.text] failing),
    ("PanicLisp", acting [.int, .int] raising) ]

/-- The methods of the kit. -/
def kitMethods : Bindings (ReflectedMethod State) :=
  numberMethods ++ textMethods ++ collectionMethods ++ otherMethods ++ returningMethods ++
    objectMethods

/-- The methods of the kit that are not exported. -/
def kitSecrets : List Text := ["Secret"]

/-- The methods that the kit exports, with one that it does not have. -/
def kitExports : List Text :=
  (kitMethods.map Prod.fst).filter (fun n => !kitSecrets.contains n) ++ [("Imaginary" : Text)]

/-- The methods of a host type. -/
def methodsOf (t : HostType) : Bindings (ReflectedMethod State) :=
  if t = counterType then counterMethods
  else if t = kitType then kitMethods
  else if t = namedType then namedMethods
  else []

/-! ### Functions -/

/-- The functions of the sample program. -/
def native (name : Text) (_ : List Value) (s : State) : Script State Value :=
  if name = "tick" then
    let s := { s with ticks := s.ticks + 1 }
    .done s (.number (Number.ofNat s.ticks))
  else if name = "boom" then .raise s (.native "boom")
  else .done s .absent

/-- The sample program. -/
def host : Host State where
  types := {
    satisfies := fun t i => t == namedType && i == .stringer
    tableEntries
    isDirect := fun h => h.type == gadgetType }
  native
  direct h name :=
    if h.type = gadgetType then (gadgetMethods h.id).find? name
    else if h.type = tableType then tableMethods.find? name
    else none
  reflected t name := (methodsOf t).find? name
  label _ h := if h.type = namedType then some (namedText h) else none

/-- Binds everything that the sample program offers. -/
def furnish (s : Session State) : Session State :=
  let objects : Bindings Object :=
    [ ("c", .reflected (some counter) ["Inc", "Reset", "Sum", "Check", "Label", "Last"]),
      ("hidden", .reflected (some counter) ["Inc"]),
      ("k", .reflected (some kit) kitExports),
      ("p", .reflected (some point) []),
      ("named", .reflected (some named) ["Name", "String"]),
      ("t", .direct table),
      ("void", .reflected none ["Inc"]),
      ("hollow", .hollow) ]
  let values : Bindings Value :=
    [ ("stored", .fail .argument ["kept"]),
      ("opaque", .atom (.integer 7)),
      ("none", .atom .vacant) ]
  let s := objects.foldl (fun s b => s.bind b.1 (.object b.2)) s
  let s := values.foldl (fun s b => s.bind b.1 b.2) s
  let s := ["tick", "nothing", "boom"].foldl (fun s name => s.bindNative name) s
  (s.bindTransformer "last-form" .lastOperand).bindTransformer "now" .eager

/-- A session of the sample program, whose bindings are not yet there. -/
def session (c : Config) : Session State := .start c host .initial

end Sample

end LittleLisp
