/-
# Shape reports of trees that correspond

Most of a shape report goes by two numbers of each node, how many children it has and how
long its stem is; only the memory goes by more.  So trees whose nodes agree in these two,
one after the other, have reports that agree (`Tree.histogram_agrees`), also when they are
trees of different families.
-/
import RadixIndex.Proofs.Answers
import RadixIndex.Tree.Shape

namespace RadixIndex

variable {H H' : Type} [NodeHeader H] [NodeHeader H']

/-- Both nodes have as many children and a stem as long. -/
structure Node.Alike (nd : Node H) (nd' : Node H') : Prop where
  count_eq : nd'.count = nd.count
  stemLength_eq : nd'.stemLength = nd.stemLength

namespace Histogram

/-- The reports agree, memory left aside. -/
structure Agrees (s s' : Histogram) : Prop where
  items_eq : s'.items = s.items
  stemLengths_eq : s'.stemLengths = s.stemLengths
  longStems_eq : s'.longStems = s.longStems

variable {s s' : Histogram}

theorem Agrees.nodes_eq (h : s.Agrees s') : s'.nodes = s.nodes := by
  rw [nodes, nodes, h.stemLengths_eq, h.longStems_eq]

theorem items_add (s : Histogram) (nd : Node H) : (s.add nd).items = s.items + nd.count := by
  simp only [add]
  split <;> split <;> rfl

theorem stemLengths_add (s : Histogram) (nd : Node H) : (s.add nd).stemLengths =
    if h : nd.stemLength < inlineCapacity + 1 then
      s.stemLengths.set nd.stemLength (s.stemLengths[nd.stemLength] + 1)
    else s.stemLengths := by
  simp only [add]
  split <;> split <;> rfl

theorem longStems_add (s : Histogram) (nd : Node H) : (s.add nd).longStems =
    if nd.stemLength < inlineCapacity + 1 then s.longStems else s.longStems + 1 := by
  simp only [add]
  split <;> split <;> rfl

theorem Agrees.add (h : s.Agrees s') {nd : Node H} {nd' : Node H'} (hnd : nd.Alike nd') :
    (s.add nd).Agrees (s'.add nd') := by
  obtain ⟨hcount, hlength⟩ := hnd
  refine ⟨?_, ?_, ?_⟩
  · rw [items_add, items_add, h.items_eq, hcount]
  · rw [stemLengths_add, stemLengths_add]
    simp only [hlength, h.stemLengths_eq]
  · rw [longStems_add, longStems_add, hlength, h.longStems_eq]

theorem Agrees.foldl {ns : List (Node H)} {ns' : List (Node H')}
    (hns : List.Forall₂ Node.Alike ns ns') (h : s.Agrees s') :
    (ns.foldl Histogram.add s).Agrees (ns'.foldl Histogram.add s') := by
  induction hns generalizing s s' with
  | nil => exact h
  | cons hnd _ ih => exact ih (h.add hnd)

end Histogram

theorem Tree.histogram_agrees {t : Tree H} {t' : Tree H'}
    (h : List.Forall₂ Node.Alike t.nodes t'.nodes) : t.histogram.Agrees t'.histogram :=
  Histogram.Agrees.foldl h ⟨rfl, rfl, rfl⟩

end RadixIndex
