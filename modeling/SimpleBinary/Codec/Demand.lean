import SimpleBinary.Codec.Message

/-!
# What an encoding asks for

The encoding of a value asks for room at places that have paths: for a literal in an element of the
block, for a number in a slot of a header, for the bytes of a text in an array.  Here the layout and
the value are gone through place by place, and nothing is said of the image that is written.
-/

namespace SimpleBinary

/-- What is to be put somewhere, beside the room that there is for it. -/
inductive Demand where
  | literal (p : Primitive) (l : Literal)
  | number (s : HeaderSlot) (n : Nat)
  | text (length arrayLength : Nat)
deriving DecidableEq, Repr

namespace Demand

/-- What is asked for, as errors show it. -/
def shown : Demand → String
  | literal _ l => l.text
  | number _ n => toString n
  | text length _ => s!"{length} bytes"

/-- The type that there is for it, as errors show it. -/
def typeName : Demand → String
  | literal p _ => p.name
  | number s _ => s.primitive.name
  | text _ arrayLength => s!"char[{arrayLength}]"

end Demand

/-- What an element or an array asks for: room for a literal, for a literal in each item, or for the
bytes of a text.  If it is left out that is the null value, and a constant asks for nothing. -/
inductive PrimitiveLayout.Demands (p : PrimitiveLayout) (path : String) :
    Option Value → (place : String) → Demand → Prop
  | null (hc : p.isConstant = false) (ho : p.isOptional = true) :
    Demands p path none path (.literal p.primitive p.nullValue)
  | text {v : Value} {bs : Bytes} (hc : p.isConstant = false) (ht : p.isText = true)
    (hv : p.textBytes path v = .ok bs) : Demands p path (some v) path (.text bs.length p.arrayLength)
  | item {items : List Value} {index : Nat} {v : Value} {l : Literal} (hc : p.isConstant = false)
    (ht : p.isText = false) (ha : p.isArray = true) (hi : items[index]? = some v)
    (hl : v.toLiteral? = some l) :
    Demands p path (some (.array items)) (itemPath path index) (.literal p.primitive l)
  | element {v : Value} {l : Literal} (hc : p.isConstant = false) (ht : p.isText = false)
    (ha : p.isArray = false) (hl : v.toLiteral? = some l) :
    Demands p path (some v) path (.literal p.primitive l)

/-- What a field asks for, and the members of a composite at any depth. -/
inductive FieldKind.Demands : FieldKind → (path : String) → Option Value → (place : String) →
    Demand → Prop
  | primitive {p : PrimitiveLayout} {path place : String} {v : Option Value} {d : Demand}
    (h : p.Demands path v place d) : Demands (.primitive p) path v place d
  | member {c : CompositeLayout} {f : FieldLayout} {path place : String} {v : Value} {d : Demand}
    (hv : v.isObject = true) (hf : f ∈ c.members)
    (h : Demands f.kind (childPath path f.name) (v.field? f.name) place d) :
    Demands (.composite c) path (some v) place d
  | enumeration {e : EnumLayout} {path name : String} {v : Value} {l : Literal}
    (hv : v.enumName? = some name) (hl : e.literalNamed? name = some l) :
    Demands (.enumeration e) path (some v) path (.literal e.encoding l)
  | set {s : SetLayout} {path typeName : String} {choices : List String} {bits : UInt64}
    (h : s.bitsOf path choices = .ok bits) :
    Demands (.set s) path (some (.set typeName choices)) path (.literal s.encoding (.uint bits))

/-- What a body asks for: its fields, the headers and the elements of its groups at any depth, and
the lengths of its var-data. -/
inductive BodyLayout.Demands : BodyLayout → (path : String) → Value → (place : String) →
    Demand → Prop
  | field {b : BodyLayout} {path place : String} {v : Value} {f : FieldLayout} {d : Demand}
    (hv : v.isObject = true) (hf : f ∈ b.fields)
    (h : f.kind.Demands (childPath path f.name) (v.field? f.name) place d) :
    Demands b path v place d
  | blockLength {b : BodyLayout} {path : String} {v : Value} {g : GroupLayout}
    {elements : List Value} (hg : g ∈ b.groups) (hv : v.field? g.name = some (.array elements)) :
    Demands b path v (childPath path g.name) (.number g.dimension.blockLength g.body.blockLength)
  | count {b : BodyLayout} {path : String} {v : Value} {g : GroupLayout} {elements : List Value}
    (hg : g ∈ b.groups) (hv : v.field? g.name = some (.array elements)) :
    Demands b path v (childPath path g.name) (.number g.dimension.numInGroup elements.length)
  | element {b : BodyLayout} {path place : String} {v e : Value} {g : GroupLayout}
    {elements : List Value} {index : Nat} {d : Demand} (hg : g ∈ b.groups)
    (hv : v.field? g.name = some (.array elements)) (he : elements[index]? = some e)
    (h : Demands g.body (itemPath (childPath path g.name) index) e place d) :
    Demands b path v place d
  | length {b : BodyLayout} {path : String} {v : Value} {x : VarDataLayout} {payload : Bytes}
    (hx : x ∈ b.varData)
    (hp : x.payload (childPath path x.name) (v.field? x.name) = .ok payload) :
    Demands b path v (childPath path x.name) (.number x.length payload.length)

/-- What the header of a message asks for. -/
inductive MessageHeader.Demands (m : MessageHeader) (h : HeaderLayout) : (place : String) →
    Demand → Prop
  | blockLength : Demands m h "header.blockLength" (.number h.blockLength m.blockLength.toNat)
  | templateId : Demands m h "header.templateId" (.number h.templateId m.templateId.toNat)
  | schemaId : Demands m h "header.schemaId" (.number h.schemaId m.schemaId.toNat)
  | version : Demands m h "header.version" (.number h.version m.version.toNat)

end SimpleBinary
