/-
# Nodes in loose form

Every static node can be taken apart into its stem and the list of its children
with their bytes, and such a loose form can be packed into the shape that a
policy asks for.  `Loose.settle` packs too, but leaves no node with fewer than
two children behind.
-/
import RadixIndex.Static.Header

namespace RadixIndex.Static

/-- The rule for choosing between dense and full nodes. -/
structure ShapePolicy where
  /-- A node with more children than this is full. -/
  denseThreshold : Nat := 227
  deriving DecidableEq, Repr

/-- A node of `count` children is to be full: it has many, or it is an inner
node, that is, none of its children is a leaf. -/
def ShapePolicy.wantsFull (p : ShapePolicy) (count : Nat) (inner : Bool) : Bool :=
  decide (p.denseThreshold < count) || inner

/-- A node taken apart. -/
structure Loose where
  stem : Key
  /-- The children with the bytes that lead to them. -/
  entries : List (UInt8 × Tree)

namespace Loose

/-- A node in loose form. -/
def ofNode (n : Node) : Loose := ⟨n.stemBytes, n.children⟩

/-- The loose form with these children, whose bytes have to ascend. -/
def make (stem : Key) (entries : List (UInt8 × Tree)) : Except Fault Loose :=
  if ascending (entries.map Prod.fst) then .ok ⟨stem, entries⟩ else .error .order

/-- The bytes that lead to the children. -/
def keys (l : Loose) : Key := l.entries.map Prod.fst

/-- None of the children is a leaf. -/
def isInner (l : Loose) : Bool := l.entries.all fun e => !e.2.isLeaf

/-- The children in the slots of a node with as many slots as children. -/
def inOrder (l : Loose) (i : Fin l.keys.length) : Tree :=
  (l.entries.get (i.cast (by simp [keys]))).2

/-- The children in the slots of a full node. -/
def byByte (l : Loose) (b : Fin 256) : Tree :=
  (l.entries.lookup (UInt8.ofFin b)).getD .empty

/-- The node of loose shape. -/
def toNode (l : Loose) : Node := .build (.loose l.stem l.keys) l.inOrder

theorem toTree_toNode (l : Loose) :
    l.toNode.toTree = .node (.loose l.stem l.keys) l.inOrder := by
  rw [toNode, Node.build_eq]
  rfl

/-- The node in the shape that the policy asks for. -/
def pack (p : ShapePolicy) (l : Loose) : Node :=
  if p.wantsFull l.keys.length l.isInner then
    if l.stem.isEmpty then .build (.full l.keys.length) l.byByte
    else .build (.fullStem l.stem l.keys.length) l.byByte
  else
    if l.stem.isEmpty then .build (.dense l.keys) l.inOrder
    else .build (.denseStem l.stem l.keys) l.inOrder

end Loose

/-- A tree with `lead` put in front of the stem of its root; a root with a single
child gives way to that child. -/
def Tree.graft (p : ShapePolicy) : (lead : Key) → Tree → Tree
  | _, .empty => .empty
  | _, .leaf r => .leaf r
  | lead, .node h c =>
      match NodeHeader.slots h fun i => !(c i).isEmpty with
      | [] => .empty
      | [(byte, i)] => graft p (lead ++ h.stem ++ [byte]) (c i)
      | slots => ((Loose.mk (lead ++ h.stem) (slots.map fun s => (s.1, c s.2))).pack p).toTree

/-- The tree of a node in loose form: nothing if there are no children, the child
in the place of the node if there is one, a packed node otherwise. -/
def Loose.settle (p : ShapePolicy) (l : Loose) : Tree :=
  match l.entries with
  | [] => .empty
  | [(byte, t)] => t.graft p (l.stem ++ [byte])
  | _ => (l.pack p).toTree

/-- A tree with the loose nodes at its top settled. -/
def Tree.settled (p : ShapePolicy) : Tree → Tree
  | .empty => .empty
  | .leaf r => .leaf r
  | .node h c =>
      if h.isLoose then
        Loose.settle p
          ⟨h.stem, (NodeHeader.slots h fun i => !(c i).isEmpty).map fun s =>
            (s.1, settled p (c s.2))⟩
      else .node h c

end RadixIndex.Static
