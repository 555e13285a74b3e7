import Mathlib.Algebra.BigOperators.Group.Finset.Basic
import Mathlib.Data.List.FinRange
import Mathlib.Data.Sym.Sym2
import ProceduralShapes.Proofs.Mesh.GridFaces

/-!
# Directed edges

Every face runs round its corners along three directed edges. A mesh is closed and consistently
oriented if along every edge of a face exactly one face runs, and exactly one the other way
(`Mesh.IsClosed`). To see it, the sides of the faces are named: different names stand for
different edges, and every side has a mate that runs the other way. Without their direction such
edges are half as many.
-/

namespace ProceduralShapes

variable {α β ι : Type}

namespace Triangle

/- The side from one corner to the one after it. -/
def side (t : Triangle α) : Fin 3 → α × α
  | 0 => (t.1, t.2.1)
  | 1 => (t.2.1, t.2.2)
  | 2 => (t.2.2, t.1)

def sides (t : Triangle α) : List (α × α) := (List.finRange 3).map t.side

def toList (t : Triangle α) : List α := [t.1, t.2.1, t.2.2]

theorem side_map (g : α → β) (t : Triangle α) (k : Fin 3) :
    side (map g t) k = Prod.map g g (side t k) := by
  match k with
  | 0 => rfl
  | 1 => rfl
  | 2 => rfl

theorem side_of_corners {P : α → Prop} {t : Triangle α} (h : P t.1 ∧ P t.2.1 ∧ P t.2.2)
    (k : Fin 3) : P (t.side k).1 ∧ P (t.side k).2 := by
  obtain ⟨ha, hb, hc⟩ := h
  match k with
  | 0 => exact ⟨ha, hb⟩
  | 1 => exact ⟨hb, hc⟩
  | 2 => exact ⟨hc, ha⟩

/- A map that tells a corner from all others keeps it apart in the image. -/
theorem mem_toList_map {P : α → Prop} {g : α → β} {t : Triangle α} {a : α}
    (h : P t.1 ∧ P t.2.1 ∧ P t.2.2) (hg : ∀ b, P b → g a = g b → a = b) :
    g a ∈ toList (map g t) ↔ a ∈ toList t := by
  obtain ⟨ha, hb, hc⟩ := h
  have hsame : ∀ b, P b → (g a = g b ↔ a = b) := fun b hb => ⟨hg b hb, congrArg g⟩
  simp only [toList, map, List.mem_cons, List.not_mem_nil, or_false, hsame _ ha, hsame _ hb,
    hsame _ hc]

end Triangle

/- The sides of tiles run between places of the grid. -/
theorem Grid.inside_side {s : Stitch} {rows len : Nat} {t : Tile} (ht : t ∈ tiles s rows len)
    (hrows : 0 < rows) (k : Fin 3) : Inside rows len (Triangle.side (corners rows len t) k).1 ∧
      Inside rows len (Triangle.side (corners rows len t) k).2 :=
  Triangle.side_of_corners (inside_corners ht hrows) k

namespace Mesh

/- The directed edges of all faces, face by face. -/
def edges (m : Mesh α) : List (Nat × Nat) :=
  m.faces.toList.flatMap fun f => Triangle.sides f.indices

/- One face runs along every edge of a face, and one the other way. -/
def IsClosed (m : Mesh α) : Prop :=
  ∀ e ∈ m.edges, m.edges.count e = 1 ∧ m.edges.count e.swap = 1

theorem edges_eq_map {m : Mesh α} {tiles : List ι} {triangle : ι → Triangle Nat}
    (hfaces : m.faces.toList.map Face.indices = tiles.map triangle) :
    m.edges = (tiles ×ˢ List.finRange 3).map fun s => Triangle.side (triangle s.1) s.2 := by
  have hsides : m.edges = (m.faces.toList.map Face.indices).flatMap Triangle.sides := by
    rw [edges, List.flatMap_map]
  rw [hsides, hfaces, List.flatMap_map]
  simp only [SProd.sprod, List.product, List.map_flatMap, List.map_map]
  rfl

theorem isClosed_of_mates {m : Mesh α} {tiles : List ι} {triangle : ι → Triangle Nat}
    (hfaces : m.faces.toList.map Face.indices = tiles.map triangle) (hnodup : tiles.Nodup)
    (hinj : ∀ t ∈ tiles, ∀ k, ∀ t' ∈ tiles, ∀ k',
      Triangle.side (triangle t) k = Triangle.side (triangle t') k' → t = t' ∧ k = k')
    (hmate : ∀ t ∈ tiles, ∀ k, ∃ t' ∈ tiles, ∃ k',
      Triangle.side (triangle t') k' = (Triangle.side (triangle t) k).swap) : m.IsClosed := by
  have hedges := edges_eq_map hfaces
  have honce : m.edges.Nodup := by
    rw [hedges]
    refine List.Nodup.map_on ?_ (hnodup.product (List.nodup_finRange 3))
    intro s hs s' hs' hsame
    obtain ⟨htile, hside⟩ := hinj s.1 (List.mem_product.1 hs).1 s.2 s'.1
      (List.mem_product.1 hs').1 s'.2 hsame
    exact Prod.ext htile hside
  intro e he
  have hback : e.swap ∈ m.edges := by
    rw [hedges] at he ⊢
    obtain ⟨s, hs, rfl⟩ := List.mem_map.1 he
    obtain ⟨t', ht', k', hk'⟩ := hmate s.1 (List.mem_product.1 hs).1 s.2
    exact List.mem_map.2 ⟨(t', k'), List.mem_product.2 ⟨ht', List.mem_finRange k'⟩, hk'⟩
  exact ⟨List.count_eq_one_of_mem honce he, List.count_eq_one_of_mem honce hback⟩

end Mesh

/-! ### Faces round a corner -/

/- As many faces meet in a corner as there are tiles that have it. -/
theorem countP_corner_eq [DecidableEq β] {fs : List Face} {tiles around : List ι}
    {corners : ι → Triangle β} {number : β → Nat} {p : β}
    (hfaces : fs.map Face.indices = tiles.map (Triangle.map number ∘ corners))
    (hnumber : ∀ t ∈ tiles, number p ∈ Triangle.toList (Triangle.map number (corners t)) ↔
      p ∈ Triangle.toList (corners t))
    (hnodup : tiles.Nodup) (haround : around.Nodup)
    (hmem : ∀ t, t ∈ around ↔ t ∈ tiles ∧ p ∈ Triangle.toList (corners t)) :
    (fs.countP fun f => number p ∈ Triangle.toList f.indices) = around.length := by
  have hmeet : (tiles.filter fun t => p ∈ Triangle.toList (corners t)).Perm around := by
    rw [List.perm_ext_iff_of_nodup (hnodup.filter _) haround]
    intro t
    rw [List.mem_filter, decide_eq_true_iff, hmem]
  calc fs.countP (fun f => number p ∈ Triangle.toList f.indices)
    _ = (fs.map Face.indices).countP fun c => number p ∈ Triangle.toList c := by
        rw [List.countP_map]
        rfl
    _ = tiles.countP fun t => p ∈ Triangle.toList (corners t) := by
        rw [hfaces, List.countP_map]
        refine List.countP_congr fun t ht => ?_
        simp only [Function.comp_apply, decide_eq_true_iff]
        exact hnumber t ht
    _ = around.length := by rw [List.countP_eq_length_filter, hmeet.length_eq]

/-! ### Edges without direction -/

/- The directed edges of faces, whatever their corners stand for. -/
def directedEdges (fs : Array Face) : List (Nat × Nat) := Mesh.edges (α := Empty) ⟨#[], fs⟩

def undirectedEdges (fs : Array Face) : Finset (Sym2 Nat) :=
  (directedEdges fs).toFinset.image fun e => s(e.1, e.2)

/- A set that holds every pair with its swap holds two pairs for every pair without order. -/
theorem two_mul_card_image_sym2 {E : Finset (Nat × Nat)} (hback : ∀ e ∈ E, e.swap ∈ E)
    (hloop : ∀ e ∈ E, e.1 ≠ e.2) : 2 * (E.image fun e => s(e.1, e.2)).card = E.card := by
  rw [Finset.card_eq_sum_card_image (fun e => s(e.1, e.2)) E, Nat.mul_comm]
  refine (Finset.sum_const_nat fun b hb => ?_).symm
  obtain ⟨e, he, rfl⟩ := Finset.mem_image.1 hb
  have hpair : (E.filter fun e' => s(e'.1, e'.2) = s(e.1, e.2)) = {e, e.swap} := by
    ext e'
    simp only [Finset.mem_filter, Finset.mem_insert, Finset.mem_singleton, Sym2.eq_iff,
      Prod.ext_iff, Prod.fst_swap, Prod.snd_swap]
    constructor
    · exact fun h => h.2
    · intro h
      refine ⟨?_, h⟩
      rcases h with h | h
      · obtain rfl : e' = e := Prod.ext h.1 h.2
        exact he
      · obtain rfl : e' = e.swap := Prod.ext h.1 h.2
        exact hback e he
  rw [hpair]
  exact Finset.card_pair fun h => hloop e he (congrArg Prod.fst h)

end ProceduralShapes
