import Mathlib.Data.List.Nodup

namespace PathArmor.Library

/-- The part of a directed multigraph a search may move over: `usable` selects the edges. -/
structure Digraph (V E : Type*) where
  source : E → V
  target : E → V
  usable : E → Prop

namespace Digraph
variable {V E : Type*} (G : Digraph V E)

inductive Walk : V → List E → V → Prop
  | nil (a : V) : Walk a [] a
  | cons {e : E} {p : List E} {b : V} (usable : G.usable e) (rest : Walk (G.target e) p b) :
      Walk (G.source e) (e :: p) b

def Reach (a b : V) : Prop := ∃ p, G.Walk a p b

def OnCycle (e : E) : Prop := G.usable e ∧ G.Reach (G.target e) (G.source e)

variable {G}

theorem Walk.append {a b c : V} {p q : List E} (first : G.Walk a p b) (second : G.Walk b q c) :
    G.Walk a (p ++ q) c := by
  induction first with
  | nil a => exact second
  | cons usable rest ih => exact .cons usable (ih second)

theorem Walk.split {a c : V} {p q : List E} (walk : G.Walk a (p ++ q) c) :
    ∃ b, G.Walk a p b ∧ G.Walk b q c := by
  induction p generalizing a with
  | nil => exact ⟨a, .nil a, walk⟩
  | cons e p ih =>
      cases walk with
      | cons usable rest =>
          obtain ⟨b, left, right⟩ := ih rest
          exact ⟨b, .cons usable left, right⟩

theorem Reach.refl (a : V) : G.Reach a a := ⟨[], .nil a⟩

theorem Reach.trans {a b c : V} (first : G.Reach a b) (second : G.Reach b c) : G.Reach a c := by
  obtain ⟨p, hp⟩ := first
  obtain ⟨q, hq⟩ := second
  exact ⟨p ++ q, hp.append hq⟩

theorem Reach.edge {e : E} (usable : G.usable e) : G.Reach (G.source e) (G.target e) :=
  ⟨[e], .cons usable (.nil _)⟩

theorem Reach.head {e : E} {b : V} (usable : G.usable e) (rest : G.Reach (G.target e) b) :
    G.Reach (G.source e) b :=
  (Reach.edge usable).trans rest

theorem Reach.closed {P : V → Prop} (step : ∀ e, G.usable e → P (G.source e) → P (G.target e))
    {a b : V} (reach : G.Reach a b) (start : P a) : P b := by
  obtain ⟨p, walk⟩ := reach
  induction walk with
  | nil => exact start
  | cons usable _ ih => exact ih (step _ usable start)

theorem Walk.reach_of_mem {a b : V} {p : List E} (walk : G.Walk a p b) {e : E} (member : e ∈ p) :
    G.usable e ∧ G.Reach a (G.source e) := by
  induction walk with
  | nil => simp at member
  | @cons x p b usable _ ih =>
      rcases List.mem_cons.mp member with rfl | member
      · exact ⟨usable, .refl _⟩
      · exact (ih member).imp_right (.head usable)

theorem Walk.exists_nodup {a b : V} {p : List E} (walk : G.Walk a p b) :
    ∃ q, G.Walk a q b ∧ q.Nodup := by
  induction walk with
  | nil a => exact ⟨[], .nil a, List.nodup_nil⟩
  | @cons e p b usable rest ih =>
      obtain ⟨q, shorter, nodup⟩ := ih
      by_cases again : e ∈ q
      · obtain ⟨u, v, rfl⟩ := List.append_of_mem again
        obtain ⟨c, -, fromEdge⟩ := shorter.split
        refine ⟨e :: v, ?_, (List.nodup_append.mp nodup).2.1⟩
        cases fromEdge with
        | cons usable rest => exact .cons usable rest
      · exact ⟨e :: q, .cons usable shorter, List.nodup_cons.mpr ⟨again, nodup⟩⟩

end Digraph

end PathArmor.Library
