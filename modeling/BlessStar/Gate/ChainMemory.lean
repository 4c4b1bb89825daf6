import BlessStar.Gate.RuleLoader
import BlessStar.Gate.Proofs.JsonRoundTrip
import BlessStar.Gate.Proofs.MapCorrectness

/-!
# Gate chains in memory

`bs_gate_chain_upsert_node` and `bs_gate_chain_find` of
`gate_chain_serialize.c` on chains whose nodes have edges.  The map and the
tree are two views of the nodes: no route that makes a chain fills the map, and
an upsert makes no edge.
-/

namespace BlessStar.Gate

open Lib.ByteString Proofs

/-- `bs_gate_node_t` in memory: its edges are addresses. -/
structure NodeCell where
  scalars : GateScalars
  children : List Nat := []
  doNodes : List Nat := []

/-- The node at `b` is a child or a do-node of the one at `a`. -/
def Edge (nodes : List NodeCell) (a b : Nat) : Prop :=
  ∃ cell, nodes[a]? = some cell ∧ b ∈ cell.children ++ cell.doNodes

/-- `bs_gate_chain_t` with its nodes by address. -/
structure ChainMemory where
  nodes : List NodeCell := []
  root : Option Nat := none
  map : Option (GateMap Nat) := none

mutual

/-- Give a node and all below it an address; the node comes last. -/
def placeNode (nodes : List NodeCell) : GateNode → List NodeCell × Nat
  | .mk scalars children doNodes =>
      let below := placeNodes nodes children
      let all := placeNodes below.1 doNodes
      (all.1 ++ [⟨scalars, below.2, all.2⟩], all.1.length)

def placeNodes (nodes : List NodeCell) : List GateNode → List NodeCell × List Nat
  | [] => (nodes, [])
  | n :: ns =>
      let one := placeNode nodes n
      let rest := placeNodes one.1 ns
      (rest.1, one.2 :: rest.2)

end

inductive NodeSource
  | outside (scalars : GateScalars)
  | inside (ptr : Nat)

/-- The fields of the source; an address without a node has none. -/
def NodeSource.scalars (nodes : List NodeCell) : NodeSource → GateScalars
  | .outside scalars => scalars
  | .inside ptr => (nodes[ptr]?.map NodeCell.scalars).getD {}

/-- `copy_node_fields` into the node at `dst`.  When the source is that node, its
strings are freed before they are read. -/
def copyNodeFields (dst : Nat) (src : NodeSource) (scalars : GateScalars) : GateScalars :=
  match src with
  | .outside _ => scalars
  | .inside ptr => if ptr = dst then { layer := scalars.layer } else scalars

namespace ChainMemory

/-- A chain as `bs_gate_chain_create`, `bs_gate_ast_compile` and
`bs_gate_chain_from_json` return it. -/
def ofChain (chain : GateChain) : ChainMemory :=
  match chain.root with
  | none => {}
  | some node =>
      let placed := placeNode [] node
      { nodes := placed.1, root := some placed.2 }

def Reachable (m : ChainMemory) (ptr : Nat) : Prop :=
  ∃ root, m.root = some root ∧ Relation.ReflTransGen (Edge m.nodes) root ptr

def find (m : ChainMemory) (stableKey : Bytes) : Option Nat := m.map.bind (·.lookup stableKey)

def addNode (m : ChainMemory) (scalars : GateScalars) (map : GateMap Nat) : Nat × ChainMemory :=
  (m.nodes.length,
    { nodes := m.nodes ++ [{ scalars := scalars }]
      root := m.root <|> some m.nodes.length
      map := some map })

def overwrite (m : ChainMemory) (ptr : Nat) (src : NodeSource) (map : GateMap Nat) :
    Nat × ChainMemory :=
  (ptr,
    { m with
      nodes := m.nodes.modify ptr fun cell =>
        { cell with scalars := copyNodeFields ptr src (src.scalars m.nodes) }
      map := some map })

/-- `bs_gate_chain_upsert_node`: the node it returns, and the chain after it.  Out
of fuel in the map is `none`. -/
def upsertNode (fuel : Nat) (m : ChainMemory) (src : NodeSource) : Option (Nat × ChainMemory) :=
  let map := m.map.getD (GateMap.create 16)
  let scalars := src.scalars m.nodes
  match scalars.stableKey with
  | none => some (m.addNode scalars map)
  | some key =>
      match map.lookup key with
      | some ptr => some (m.overwrite ptr src map)
      | none => (map.insert fuel key m.nodes.length).map fun r => m.addNode scalars r.2

/-- The chains that upserts have made of one that was just returned. -/
inductive Grown : ChainMemory → Prop
  | returned (chain : GateChain) : Grown (ofChain chain)
  | upsert {m : ChainMemory} {fuel : Nat} {src : NodeSource} {r : Nat × ChainMemory} :
      Grown m → m.upsertNode (fuel + 3) src = some r → Grown r.2

/-- The node at `ptr` is the one node of the chain with the key, has the fields, and
is the one that is found. -/
structure HoldsOnce (m : ChainMemory) (key : Bytes) (scalars : GateScalars) (ptr : Nat) :
    Prop where
  found : m.find key = some ptr
  reachable : m.Reachable ptr
  scalars : m.nodes[ptr]?.map NodeCell.scalars = some scalars
  only : ∀ other cell, m.Reachable other → m.nodes[other]? = some cell →
    cell.scalars.stableKey = some key → other = ptr

/-- The upsert leaves one node with the key and the fields of the source, changes no
other node, and changes nothing when it is repeated. -/
def UpsertsOnce (fuel : Nat) (m : ChainMemory) (src : NodeSource) (key : Bytes) : Prop :=
  ∃ ptr m', m.upsertNode fuel src = some (ptr, m') ∧
    m'.HoldsOnce key (src.scalars m.nodes) ptr ∧
    (∀ other, other ≠ ptr → m'.nodes[other]? = m.nodes[other]?) ∧
    m'.upsertNode fuel src = some (ptr, m')

/-! ## A chain and its nodes in memory -/

end ChainMemory

mutual

def Represents (nodes : List NodeCell) : GateNode → Nat → Prop
  | .mk scalars children doNodes, ptr =>
      ∃ cell, nodes[ptr]? = some cell ∧ cell.scalars = scalars ∧
        RepresentsAll nodes children cell.children ∧ RepresentsAll nodes doNodes cell.doNodes

def RepresentsAll (nodes : List NodeCell) : List GateNode → List Nat → Prop
  | [], ptrs => ptrs = []
  | n :: ns, ptrs =>
      ∃ p ps, ptrs = p :: ps ∧ Represents nodes n p ∧ RepresentsAll nodes ns ps

end

theorem getElem?_of_prefix {nodes nodes' : List NodeCell} (hpre : nodes <+: nodes') {ptr : Nat}
    {cell : NodeCell} (h : nodes[ptr]? = some cell) : nodes'[ptr]? = some cell := by
  obtain ⟨more, rfl⟩ := hpre
  obtain ⟨hlt, -⟩ := List.getElem?_eq_some_iff.mp h
  rw [List.getElem?_append_left hlt, h]

mutual

theorem Represents.mono {nodes nodes' : List NodeCell} (hpre : nodes <+: nodes') :
    ∀ {n : GateNode} {ptr : Nat}, Represents nodes n ptr → Represents nodes' n ptr
  | .mk _ _ _, _, ⟨cell, hcell, hscalars, hchildren, hdoNodes⟩ =>
      ⟨cell, getElem?_of_prefix hpre hcell, hscalars, hchildren.mono hpre, hdoNodes.mono hpre⟩

theorem RepresentsAll.mono {nodes nodes' : List NodeCell} (hpre : nodes <+: nodes') :
    ∀ {ns : List GateNode} {ptrs : List Nat}, RepresentsAll nodes ns ptrs →
      RepresentsAll nodes' ns ptrs
  | [], _, h => h
  | _ :: _, _, ⟨p, ps, hptrs, hn, hns⟩ => ⟨p, ps, hptrs, hn.mono hpre, hns.mono hpre⟩

end

def Closed (nodes : List NodeCell) : Prop := ∀ a b, Edge nodes a b → b < nodes.length

theorem edge_append_cell {nodes : List NodeCell} {cell : NodeCell} {a b : Nat} :
    Edge (nodes ++ [cell]) a b ↔
      Edge nodes a b ∨ a = nodes.length ∧ b ∈ cell.children ++ cell.doNodes := by
  unfold Edge
  rcases lt_trichotomy a nodes.length with hlt | rfl | hgt
  · rw [List.getElem?_append_left hlt]
    exact ⟨Or.inl, fun h => h.resolve_right fun h => absurd h.1 (Nat.ne_of_lt hlt)⟩
  · rw [List.getElem?_concat_length, List.getElem?_eq_none (Nat.le_refl _)]
    simp
  · rw [List.getElem?_eq_none (by rw [List.length_append]; exact hgt),
      List.getElem?_eq_none (Nat.le_of_lt hgt)]
    simp [Nat.ne_of_gt hgt]

structure Placed (nodes nodes' : List NodeCell) : Prop where
  kept : nodes <+: nodes'
  closed : Closed nodes'

mutual

theorem placeNode_spec {nodes : List NodeCell} (hclosed : Closed nodes) : ∀ n : GateNode,
    Placed nodes (placeNode nodes n).1 ∧
      (placeNode nodes n).2 < (placeNode nodes n).1.length ∧
      Represents (placeNode nodes n).1 n (placeNode nodes n).2
  | .mk scalars children doNodes => by
      obtain ⟨hbelow, hlt, hrep⟩ := placeNodes_spec hclosed children
      obtain ⟨hall, hlt', hrep'⟩ := placeNodes_spec hbelow.closed doNodes
      have hlast := List.prefix_append
        (placeNodes (placeNodes nodes children).1 doNodes).1
        [⟨scalars, (placeNodes nodes children).2,
          (placeNodes (placeNodes nodes children).1 doNodes).2⟩]
      simp only [placeNode]
      refine ⟨⟨(hbelow.kept.trans hall.kept).trans hlast, fun a b hedge => ?_⟩, by simp,
        _, List.getElem?_concat_length, rfl, hrep.mono (hall.kept.trans hlast),
        hrep'.mono hlast⟩
      rw [List.length_append]
      rcases edge_append_cell.mp hedge with hold | ⟨-, hmem⟩
      · exact Nat.lt_succ_of_lt (hall.closed a b hold)
      · apply Nat.lt_succ_of_lt
        rcases List.mem_append.mp hmem with hchild | hdo
        · exact lt_of_lt_of_le (hlt b hchild) hall.kept.length_le
        · exact hlt' b hdo

theorem placeNodes_spec {nodes : List NodeCell} (hclosed : Closed nodes) : ∀ ns : List GateNode,
    Placed nodes (placeNodes nodes ns).1 ∧
      (∀ p ∈ (placeNodes nodes ns).2, p < (placeNodes nodes ns).1.length) ∧
      RepresentsAll (placeNodes nodes ns).1 ns (placeNodes nodes ns).2
  | [] => ⟨⟨List.prefix_rfl, hclosed⟩, by simp [placeNodes], rfl⟩
  | n :: ns => by
      obtain ⟨hone, hlt, hrep⟩ := placeNode_spec hclosed n
      obtain ⟨hrest, hlt', hrep'⟩ := placeNodes_spec hone.closed ns
      simp only [placeNodes]
      refine ⟨⟨hone.kept.trans hrest.kept, hrest.closed⟩, ?_, _, _, rfl, hrep.mono hrest.kept,
        hrep'⟩
      intro p hp
      rcases List.mem_cons.mp hp with rfl | hp
      · exact lt_of_lt_of_le hlt hrest.kept.length_le
      · exact hlt' p hp

end

namespace ChainMemory

theorem represents_ofChain {chain : GateChain} {node : GateNode} (h : chain.root = some node) :
    ∃ root, (ofChain chain).root = some root ∧ Represents (ofChain chain).nodes node root := by
  simp only [ofChain, h]
  exact ⟨_, rfl, (placeNode_spec (fun a b h => by simp [Edge] at h) node).2.2⟩

/-! ## What holds between two upserts -/

/-- The nodes in front of `base` are the tree that the chain was returned with: no edge
leads into or out of it, and the map has none of its nodes. -/
structure Sealed (base : Nat) (m : ChainMemory) : Prop where
  valid : MapCorrectness.Valid (m.map.getD (GateMap.create 16))
  inMemory : base ≤ m.nodes.length
  held : ∀ key ptr, m.find key = some ptr → base ≤ ptr ∧ ptr < m.nodes.length
  edges : ∀ a b, Edge m.nodes a b → a < base ∧ b < base
  root : ∀ root, m.root = some root → root < m.nodes.length ∧ (base = 0 ∨ root < base)
  empty : m.root = none → m.nodes = []

theorem lookup_create (key : Bytes) : (GateMap.create (α := Nat) 16).lookup key = none := if_pos rfl

theorem lookup_getD (m : ChainMemory) (key : Bytes) :
    (m.map.getD (GateMap.create 16)).lookup key = m.find key := by
  unfold find
  cases m.map with
  | none => exact lookup_create key
  | some map => rfl

theorem sealed_ofChain (chain : GateChain) :
    Sealed (ofChain chain).nodes.length (ofChain chain) := by
  have hvalid := (MapCorrectness.follows_create (α := Nat) 16).valid
  have hnone : Closed [] := fun a b h => by simp [Edge] at h
  unfold ofChain
  cases chain.root with
  | none =>
      exact ⟨hvalid, Nat.le_refl _, nofun, fun a b h => by simp [Edge] at h, nofun, fun _ => rfl⟩
  | some node =>
      obtain ⟨hplaced, hlt, -⟩ := placeNode_spec hnone node
      refine ⟨hvalid, Nat.le_refl _, nofun, fun a b hedge => ⟨?_, hplaced.closed a b hedge⟩, ?_, nofun⟩
      · obtain ⟨cell, hcell, -⟩ := hedge
        exact (List.getElem?_eq_some_iff.mp hcell).1
      · rintro root ⟨⟩
        exact ⟨hlt, Or.inr hlt⟩

theorem Sealed.reachable {base : Nat} {m : ChainMemory} (h : Sealed base m) {ptr : Nat}
    (hreach : m.Reachable ptr) : m.root = some ptr ∨ ptr < base := by
  obtain ⟨root, hroot, hpath⟩ := hreach
  rcases hpath.cases_tail with rfl | ⟨before, -, hedge⟩
  · exact Or.inl hroot
  · exact Or.inr (h.edges _ _ hedge).2

@[simp] theorem root_addNode (m : ChainMemory) (scalars : GateScalars) (map : GateMap Nat) :
    (m.addNode scalars map).2.root = some (m.root.getD m.nodes.length) := by
  cases h : m.root <;> simp [ChainMemory.addNode, h]

theorem Sealed.addNode {base : Nat} {m : ChainMemory} (h : Sealed base m) (scalars : GateScalars)
    {map : GateMap Nat} (hvalid : MapCorrectness.Valid map)
    (hheld : ∀ key ptr, map.lookup key = some ptr → m.find key = some ptr ∨ ptr = m.nodes.length) :
    Sealed base (m.addNode scalars map).2 := by
  have hlen : (m.addNode scalars map).2.nodes.length = m.nodes.length + 1 := by
    simp [ChainMemory.addNode]
  have hin := h.inMemory
  refine ⟨hvalid, by omega, fun key ptr hfind => ?_, fun a b hedge => ?_, fun root hroot => ?_,
    fun hroot => ?_⟩
  · rw [hlen]
    rcases hheld key ptr hfind with hold | rfl
    · have hptr := h.held key ptr hold
      omega
    · omega
  · rcases edge_append_cell.mp hedge with hold | ⟨-, hnew⟩
    · exact h.edges a b hold
    · cases hnew
  · rw [root_addNode, Option.some.injEq] at hroot
    rw [hlen]
    cases hold : m.root with
    | none =>
        have hnodes := h.empty hold
        simp only [hold, hnodes, Option.getD_none, List.length_nil] at hroot hin ⊢
        omega
    | some old =>
        have hroot' := h.root old hold
        simp only [hold, Option.getD_some] at hroot
        omega
  · rw [root_addNode] at hroot
    cases hroot

theorem edge_modify {nodes : List NodeCell} {ptr : Nat} (f : NodeCell → GateScalars) {a b : Nat} :
    Edge (nodes.modify ptr fun cell => { cell with scalars := f cell }) a b ↔ Edge nodes a b := by
  unfold Edge
  by_cases ha : ptr = a
  · simp [ha]
  · simp [ha]

theorem Sealed.overwrite {base : Nat} {m : ChainMemory} (h : Sealed base m) (ptr : Nat)
    (src : NodeSource) :
    Sealed base (m.overwrite ptr src (m.map.getD (GateMap.create 16))).2 := by
  have hlen : (m.overwrite ptr src (m.map.getD (GateMap.create 16))).2.nodes.length =
      m.nodes.length := List.length_modify ..
  refine ⟨h.valid, by rw [hlen]; exact h.inMemory, fun key other hfind => ?_, fun a b hedge => ?_,
    fun root hroot => ?_, fun hroot => ?_⟩
  · rw [hlen]
    apply h.held key other
    rw [← lookup_getD]
    exact hfind
  · exact h.edges a b ((edge_modify _).mp hedge)
  · rw [hlen]
    exact h.root root hroot
  · simp [ChainMemory.overwrite, h.empty hroot]

/-! ## One upsert -/

section

variable {base : Nat} {m : ChainMemory} {src : NodeSource} {key : Bytes}

theorem upsertNode_found {ptr : Nat} (fuel : Nat)
    (hkey : (src.scalars m.nodes).stableKey = some key) (hfind : m.find key = some ptr) :
    m.upsertNode fuel src = some (m.overwrite ptr src (m.map.getD (GateMap.create 16))) := by
  simp only [upsertNode, hkey, lookup_getD, hfind]

theorem upsertNode_new (h : Sealed base m) (fuel : Nat)
    (hkey : (src.scalars m.nodes).stableKey = some key) (hfind : m.find key = none) :
    ∃ map, m.upsertNode (fuel + 3) src = some (m.addNode (src.scalars m.nodes) map) ∧
      MapCorrectness.Valid map ∧ map.lookup key = some m.nodes.length ∧
      ∀ k ptr, map.lookup k = some ptr → m.find k = some ptr ∨ ptr = m.nodes.length := by
  obtain ⟨map, hinsert, hstored⟩ := MapCorrectness.insert_spec h.valid key m.nodes.length fuel
  have hlookup := MapCorrectness.lookup_eq_some_iff hstored.valid
  refine ⟨map, ?_, hstored.valid, ?_, fun k ptr hk => ?_⟩
  · simp only [upsertNode, hkey, lookup_getD, hfind, hinsert, Option.map_some]
  · rw [hlookup, hstored.holds]
    exact Or.inl ⟨rfl, rfl⟩
  · rw [hlookup, hstored.holds, ← MapCorrectness.lookup_eq_some_iff h.valid, lookup_getD] at hk
    exact hk.symm.imp And.right And.right

end

theorem Sealed.upsert {base : Nat} {m : ChainMemory} (h : Sealed base m) {fuel : Nat}
    {src : NodeSource} {r : Nat × ChainMemory} (hrun : m.upsertNode (fuel + 3) src = some r) :
    Sealed base r.2 := by
  cases hkey : (src.scalars m.nodes).stableKey with
  | none =>
      simp only [upsertNode, hkey, Option.some.injEq] at hrun
      rw [← hrun]
      refine h.addNode _ h.valid fun key ptr hlookup => Or.inl ?_
      rw [← lookup_getD, hlookup]
  | some key =>
      cases hfind : m.find key with
      | none =>
          obtain ⟨map, hrun', hvalid, -, hheld⟩ := upsertNode_new h fuel hkey hfind
          obtain rfl := Option.some.inj (hrun'.symm.trans hrun)
          exact h.addNode _ hvalid hheld
      | some ptr =>
          obtain rfl := Option.some.inj ((upsertNode_found _ hkey hfind).symm.trans hrun)
          exact h.overwrite ptr src

theorem Grown.sealed {m : ChainMemory} (h : Grown m) : ∃ base, Sealed base m := by
  induction h with
  | returned chain => exact ⟨_, sealed_ofChain chain⟩
  | upsert _ hrun ih =>
      obtain ⟨base, hbase⟩ := ih
      exact ⟨base, hbase.upsert hrun⟩

theorem copyNodeFields_of_ne {ptr : Nat} {src : NodeSource} (hne : src ≠ .inside ptr)
    (scalars : GateScalars) : copyNodeFields ptr src scalars = scalars := by
  cases src with
  | outside _ => rfl
  | inside other =>
      have hother : other ≠ ptr := fun heq => hne (congrArg NodeSource.inside heq)
      simp [copyNodeFields, hother]

theorem scalars_of_kept {nodes nodes' : List NodeCell} {ptr : Nat} {src : NodeSource}
    (hne : src ≠ .inside ptr) (hkept : ∀ other, other ≠ ptr → nodes'[other]? = nodes[other]?) :
    src.scalars nodes' = src.scalars nodes := by
  cases src with
  | outside _ => rfl
  | inside other =>
      have hother : other ≠ ptr := fun heq => hne (congrArg NodeSource.inside heq)
      simp only [NodeSource.scalars, hkept other hother]

section

variable {base : Nat} {m : ChainMemory} {src : NodeSource} {key : Bytes}

theorem kept_overwrite (m : ChainMemory) (ptr : Nat) (src : NodeSource) (map : GateMap Nat)
    (other : Nat) (hne : other ≠ ptr) :
    (m.overwrite ptr src map).2.nodes[other]? = m.nodes[other]? := by
  simp [overwrite, hne.symm]

theorem scalars_overwrite (m : ChainMemory) {ptr : Nat} (hlt : ptr < m.nodes.length)
    (src : NodeSource) (map : GateMap Nat) :
    (m.overwrite ptr src map).2.nodes[ptr]?.map NodeCell.scalars =
      some (copyNodeFields ptr src (src.scalars m.nodes)) := by
  simp [overwrite, List.getElem?_eq_getElem hlt]

theorem overwrite_same {ptr : Nat} {map : GateMap Nat} (hne : src ≠ .inside ptr)
    (hmap : m.map = some map)
    (hsame : m.nodes[ptr]?.map NodeCell.scalars = some (src.scalars m.nodes)) :
    m.overwrite ptr src map = (ptr, m) := by
  have hnodes : (m.nodes.modify ptr fun cell =>
      { cell with scalars := copyNodeFields ptr src (src.scalars m.nodes) }) = m.nodes := by
    obtain ⟨cell, hcell, hscalars⟩ := Option.map_eq_some_iff.mp hsame
    apply List.ext_getElem?
    intro i
    by_cases hi : ptr = i
    · rw [← hi, List.getElem?_modify_eq, hcell, copyNodeFields_of_ne hne, ← hscalars]
      rfl
    · exact List.getElem?_modify_ne _ _ hi
  rw [overwrite, hnodes, ← hmap]

theorem upsertsOnce_of_empty (hs : Sealed base m) (fuel : Nat) (hroot : m.root = none)
    (hkey : (src.scalars m.nodes).stableKey = some key) : m.UpsertsOnce (fuel + 3) src key := by
  have hnodes := hs.empty hroot
  have hfind : m.find key = none := by
    cases hfind : m.find key with
    | none => rfl
    | some ptr =>
        have hlt := (hs.held key ptr hfind).2
        rw [hnodes] at hlt
        exact absurd hlt (Nat.not_lt_zero ptr)
  obtain ⟨map, hrun, hvalid, hlookup, hheld⟩ := upsertNode_new hs fuel hkey hfind
  have hne : src ≠ .inside 0 := by
    rintro rfl
    simp [NodeSource.scalars, hnodes] at hkey
  have hafter : (m.addNode (src.scalars m.nodes) map).2 =
      { nodes := [{ scalars := src.scalars m.nodes }], root := some 0, map := some map } := by
    simp [addNode, hnodes, hroot]
  rw [hnodes, List.length_nil] at hlookup
  have hkept : ∀ other, other ≠ 0 →
      [NodeCell.mk (src.scalars m.nodes) [] []][other]? = m.nodes[other]? := by
    intro other hother
    rw [hnodes, List.getElem?_eq_none (Nat.pos_of_ne_zero hother)]
    rfl
  refine ⟨0, _, hrun.trans (congrArg some (Prod.ext (by simp [addNode, hnodes]) hafter)),
    ⟨hlookup, ⟨0, rfl, .refl⟩, rfl, ?_⟩, hkept, ?_⟩
  · intro other cell _ hcell _
    have hlt := (List.getElem?_eq_some_iff.mp hcell).1
    exact Nat.lt_one_iff.mp hlt
  · have hagain := @upsertNode_found
      { nodes := [{ scalars := src.scalars m.nodes }], root := some 0, map := some map } src key 0
      (fuel + 3) (by rw [scalars_of_kept hne hkept, hkey]) hlookup
    rw [hagain]
    exact congrArg some (overwrite_same hne rfl (congrArg some (scalars_of_kept hne hkept).symm))

theorem upsertsOnce_of_root (hs : Sealed base m) (fuel : Nat) {root : Nat}
    (hroot : m.root = some root) (hfind : m.find key = some root) (hne : src ≠ .inside root)
    (hkey : (src.scalars m.nodes).stableKey = some key) : m.UpsertsOnce (fuel + 3) src key := by
  obtain ⟨hge, hlt⟩ := hs.held key root hfind
  have hbase : base = 0 := by
    have hor := (hs.root root hroot).2
    omega
  have hkept := kept_overwrite m root src (m.map.getD (GateMap.create 16))
  have hsrc := scalars_of_kept hne hkept
  have hscalars := scalars_overwrite m hlt src (m.map.getD (GateMap.create 16))
  rw [copyNodeFields_of_ne hne] at hscalars
  have hlookup : (m.overwrite root src (m.map.getD (GateMap.create 16))).2.find key =
      some root := by
    rw [← hfind, ← lookup_getD m]
    rfl
  refine ⟨root, _, upsertNode_found (fuel + 3) hkey hfind,
    ⟨hlookup, ⟨root, hroot, .refl⟩, hscalars, ?_⟩, hkept, ?_⟩
  · intro other cell hreach _ _
    rcases (hs.overwrite root src).reachable hreach with hother | hother
    · exact Option.some.inj (hother.symm.trans hroot)
    · rw [hbase] at hother
      exact absurd hother (Nat.not_lt_zero other)
  · refine (upsertNode_found (fuel + 3) (by rw [← hkey]; exact congrArg _ hsrc) hlookup).trans ?_
    exact congrArg some (overwrite_same hne rfl (hscalars.trans (congrArg some hsrc.symm)))

theorem root_of_upsertsOnce (hs : Sealed base m) (fuel : Nat)
    (hkey : (src.scalars m.nodes).stableKey = some key) (h : m.UpsertsOnce (fuel + 3) src key)
    {root : Nat} (hroot : m.root = some root) : m.find key = some root ∧ src ≠ .inside root := by
  obtain ⟨ptr, m', hrun, hone, -, -⟩ := h
  have hreach := (hs.upsert hrun).reachable hone.reachable
  cases hfind : m.find key with
  | none =>
      -- the new node is not linked
      obtain ⟨map, hrun', -⟩ := upsertNode_new hs fuel hkey hfind
      obtain ⟨rfl, rfl⟩ := Prod.ext_iff.mp (Option.some.inj (hrun'.symm.trans hrun))
      have hlt := (hs.root root hroot).1
      have hin := hs.inMemory
      rw [root_addNode, hroot, Option.getD_some, Option.some.injEq] at hreach
      simp only [addNode] at hreach
      omega
  | some found =>
      have hrun' := upsertNode_found (fuel + 3) hkey hfind
      obtain ⟨rfl, rfl⟩ := Prod.ext_iff.mp (Option.some.inj (hrun'.symm.trans hrun))
      obtain ⟨hge, hlt⟩ := hs.held key found hfind
      have hfound : found = root := by
        rcases hreach with heq | hlow
        · exact Option.some.inj (heq.symm.trans hroot)
        · exact absurd hge (Nat.not_le_of_lt hlow)
      refine ⟨congrArg some hfound, ?_⟩
      rintro rfl
      -- the fields of the node are gone
      have hscalars := hone.scalars
      rw [show (m.overwrite found (.inside root) _).1 = found from rfl,
        scalars_overwrite m hlt] at hscalars
      simp [copyNodeFields, hfound] at hscalars
      rw [← hscalars] at hkey
      cases hkey

/-- **An upsert is idempotent over the whole chain** exactly when the chain has no root yet,
or the map has the root under the key and the root is not itself the source. -/
theorem upsertsOnce_iff (h : m.Grown) (fuel : Nat)
    (hkey : (src.scalars m.nodes).stableKey = some key) :
    m.UpsertsOnce (fuel + 3) src key ↔
      m.root = none ∨ ∃ root, m.root = some root ∧ m.find key = some root ∧
        src ≠ .inside root := by
  obtain ⟨base, hs⟩ := h.sealed
  constructor
  · intro honce
    cases hroot : m.root with
    | none => exact Or.inl rfl
    | some root =>
        obtain ⟨hfind, hne⟩ := root_of_upsertsOnce hs fuel hkey honce hroot
        exact Or.inr ⟨root, rfl, hfind, hne⟩
  · rintro (hroot | ⟨root, hroot, hfind, hne⟩)
    · exact upsertsOnce_of_empty hs fuel hroot hkey
    · exact upsertsOnce_of_root hs fuel hroot hfind hne hkey

end

/-- An upsert into a chain that `bs_gate_chain_create` has made. -/
theorem upsertsOnce_created : (ofChain {}).UpsertsOnce 3
    (.outside { stableKey := some (ascii "k") }) (ascii "k") :=
  (upsertsOnce_iff (.returned {}) 0 rfl).mpr (Or.inl rfl)

theorem find_ofChain (chain : GateChain) (key : Bytes) : (ofChain chain).find key = none := by
  unfold ofChain
  cases chain.root <;> rfl

/-- A chain that was read has the key at its root, and the upsert makes a second node. -/
theorem read_chain_not_upsertsOnce : ∃ chain root,
    gateChainFromJson JsonRoundTrip.naturals 20
        (ascii "\x7b\"root\":\x7b\"stable_key\":\"k\"\x7d\x7d") = some (some chain) ∧
      chain.root = some root ∧ root.scalars.stableKey = some (ascii "k") ∧
      ¬(ofChain chain).UpsertsOnce 3 (.outside { stableKey := some (ascii "k") }) (ascii "k") := by
  have hread : ((gateChainFromJson JsonRoundTrip.naturals 20
      (ascii "\x7b\"root\":\x7b\"stable_key\":\"k\"\x7d\x7d")).join.bind (·.root)).map
      (·.scalars.stableKey) = some (some (ascii "k")) := by
    decide +kernel
  obtain ⟨root, hroot, hkey⟩ := Option.map_eq_some_iff.mp hread
  obtain ⟨chain, hchain, hroot⟩ := Option.bind_eq_some_iff.mp hroot
  refine ⟨chain, root, Option.join_eq_some_iff.mp hchain, hroot, hkey, fun h => ?_⟩
  obtain ⟨ptr, hptr, -⟩ := represents_ofChain hroot
  obtain ⟨hfind, -⟩ := root_of_upsertsOnce (sealed_ofChain chain) 0 rfl h hptr
  rw [find_ofChain] at hfind
  cases hfind

end ChainMemory

end BlessStar.Gate
