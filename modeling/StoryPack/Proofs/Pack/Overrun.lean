/-
What an overrun leaves behind.

A run that has overrun its budget leaves a mark in the heap.  A script is run
only after the mark has been taken away, and nothing else looks at it from
outside of scripts: not the collector, which may run before the first script.  So
loads do not depend on it.

* `Heap.withTripped`, `Host.withTripped` — a host with or without the mark;
* `Heap.collected_withTripped` — the collector;
* `Host.executeWithin_withTripped` — running a script;
* `Assembler.acceptAll_withTripped`, `Loader.execute_withTripped` — loads.
-/
import StoryPack.Pack.Loader
import StoryPack.Proofs.Script.Collection

namespace StoryPack

open Script

namespace Script

/-- The heap whose last run has overrun its budget, or has not. -/
def Heap.withTripped (h : Heap) (b : Bool) : Heap := { h with tripped := b }

theorem Marks.reach_withTripped (h : Heap) (b : Bool) (fuel : Nat) (m : Marks) :
    m.reach (h.withTripped b) fuel = m.reach h fuel := by
  induction fuel generalizing m with
  | zero => rfl
  | succ fuel ih =>
    unfold Marks.reach
    cases m.pending with
    | nil => rfl
    | cons v rest => exact ih _

theorem Marks.complete_withTripped (h : Heap) (b : Bool) (rounds : Nat) (m : Marks) :
    m.complete (h.withTripped b) rounds = m.complete h rounds := by
  induction rounds generalizing m with
  | zero => rfl
  | succ rounds ih =>
    have hlate (m : Marks) : m.late (h.withTripped b) = m.late h := rfl
    have hbound : (h.withTripped b).reachBound = h.reachBound := rfl
    unfold Marks.complete
    dsimp only
    rw [hbound, reach_withTripped, hlate]
    cases (m.reach h (h.reachBound + m.pending.length)).late h with
    | nil => rfl
    | cons v rest => exact ih _

theorem Heap.without_withTripped (h : Heap) (b : Bool) (gone : List (Nat × Key)) :
    (h.withTripped b).without gone = (h.without gone).withTripped b := by
  induction gone generalizing h with
  | nil => rfl
  | cons e gone ih => exact ih (h.setKey e.1 e.2 .nil)

/-- The collector does not look at the mark. -/
theorem Heap.collected_withTripped (h : Heap) (b : Bool) (roots : List Value) (all : Bool) :
    (h.withTripped b).collected roots all = (h.collected roots all).withTripped b := by
  have hmarked : (h.withTripped b).marked roots = h.marked roots :=
    Marks.complete_withTripped ..
  have hdead : (h.marked roots).dead (h.withTripped b) = (h.marked roots).dead h := rfl
  unfold Heap.collected
  dsimp only
  rw [hmarked, hdead, without_withTripped]
  rfl

end Script

namespace Host

variable (host : Host) (b : Bool)

/-- The host whose last run has overrun its budget, or has not. -/
def withTripped : Host := host.withHeap (host.heap.withTripped b)

theorem withTripped_self : host.withTripped host.heap.tripped = host := rfl

theorem afford_withTripped {α : Type} (roots : List Value) (a : α) :
    (host.withTripped b).afford roots a =
      ((host.afford roots a).1.withTripped b, (host.afford roots a).2) := by
  cases hfull : host.heap.overfull with
  | false =>
    rw [host.afford_of_not_overfull hfull, (host.withTripped b).afford_of_not_overfull hfull]
  | true =>
    have hcollected := host.heap.collected_withTripped b (roots ++ host.interpreter.held) true
    have hheap : (host.withTripped b).heap = host.heap.withTripped b := rfl
    have hheld : (host.withTripped b).interpreter.held = host.interpreter.held := rfl
    rw [host.afford_of_overfull hfull, (host.withTripped b).afford_of_overfull hfull, hheld, hheap,
      hcollected]
    rfl

theorem newTable_withTripped :
    (host.withTripped b).newTable = (host.newTable.1.withTripped b, host.newTable.2) :=
  afford_withTripped (host.withHeap (host.heap.newTable {}).1) b _ _

theorem foldl_setName_withTripped (h : Heap) (env : Nat) (bs : List (String × Value)) :
    bs.foldl (fun h e => h.setName env e.1 e.2) (h.withTripped b) =
      (bs.foldl (fun h e => h.setName env e.1 e.2) h).withTripped b := by
  induction bs generalizing h with
  | nil => rfl
  | cons e bs ih => exact ih (h.setName env e.1 e.2)

theorem furnish_withTripped (bs : List (String × Value)) :
    (host.withTripped b).furnish bs =
      ((host.furnish bs).1.withTripped b, (host.furnish bs).2) := by
  have hnew (host : Host) : host.furnish bs =
      (host.withHeap ((host.defaults (host.heap.newTable {}).2 ++ bs).foldl
        (fun h e => h.setName (host.heap.newTable {}).2 e.1 e.2) (host.heap.newTable {}).1),
      ⟨(host.heap.newTable {}).2⟩) := rfl
  have hfold := foldl_setName_withTripped b (host.heap.newTable {}).1 (host.heap.newTable {}).2
    (host.defaults (host.heap.newTable {}).2 ++ bs)
  have hheap : ((host.withTripped b).heap.newTable {}).1 =
      (host.heap.newTable {}).1.withTripped b := rfl
  have henv : ((host.withTripped b).heap.newTable {}).2 = (host.heap.newTable {}).2 := rfl
  have hdefaults : (host.withTripped b).defaults = host.defaults := rfl
  rw [hnew host, hnew (host.withTripped b), hheap, henv, hdefaults, hfold]
  generalize List.foldl _ (host.heap.newTable {}).1 _ = g
  rfl

theorem newSandbox_withTripped (bs : List (String × Value)) :
    (host.withTripped b).newSandbox bs =
      ((host.newSandbox bs).1.withTripped b, (host.newSandbox bs).2) := by
  unfold newSandbox
  rw [furnish_withTripped]
  generalize host.furnish bs = p
  exact afford_withTripped ..

theorem compile_withTripped (sandbox : Sandbox) (source : ByteArray) (label : String) :
    (host.withTripped b).compile sandbox source label =
      (host.compile sandbox source label).map fun p => (p.1.withTripped b, p.2) := by
  have hdefine (chunk : ByteArray) :
      (host.withTripped b).interpreter.define chunk source sandbox.env =
        (host.interpreter.define chunk source sandbox.env).map fun p =>
          ({ p.1 with heap := { p.1.heap with tripped := b } }, p.2) := by
    unfold Interpreter.define
    cases Script.compile chunk source <;> rfl
  unfold compile
  dsimp only
  split
  · rfl
  · split
    · rfl
    · rw [hdefine]
      cases host.interpreter.define _ source sandbox.env with
      | ok p => rfl
      | error e => cases e <;> rfl

/-- A script is run without the mark of an earlier run, or it is not run at all. -/
theorem executeWithin_withTripped (patience : Nat) (sandbox : Sandbox) (source : ByteArray)
    (label : String) (budget : Option Nat) :
    (∃ f, executeWithin patience host sandbox source label budget = (host, .error f) ∧
        executeWithin patience (host.withTripped b) sandbox source label budget =
          (host.withTripped b, .error f)) ∨
      executeWithin patience (host.withTripped b) sandbox source label budget =
        executeWithin patience host sandbox source label budget := by
  unfold executeWithin
  rw [compile_withTripped]
  cases host.compile sandbox source label with
  | error f => exact .inl ⟨f, rfl, rfl⟩
  | ok p => exact .inr rfl

end Host

namespace Assembler

/-- Two outcomes that differ at most in the mark. -/
def SameButTripped {α : Type} (r r' : Host × α) : Prop :=
  (∃ b, r'.1 = r.1.withTripped b) ∧ r'.2 = r.2

variable (host : Host) (b : Bool)

theorem runScript_withTripped (a : Assembler) (budget : Option Nat)
    (parents : List (String × Nat)) (place : Place) (source : ByteArray) :
    SameButTripped (a.runScript host budget parents place source)
      (a.runScript (host.withTripped b) budget parents place source) := by
  unfold runScript
  rw [Host.newTable_withTripped]
  generalize host.newTable = p
  obtain ⟨host₁, f | fresh⟩ := p
  · exact ⟨⟨b, rfl⟩, rfl⟩
  · dsimp only
    rw [Host.newSandbox_withTripped]
    generalize host₁.newSandbox _ = p
    obtain ⟨host₂, f | sandbox⟩ := p
    · exact ⟨⟨b, rfl⟩, rfl⟩
    · dsimp only
      rw [Host.execute, Host.execute]
      rcases Host.executeWithin_withTripped host₂ b Script.patience sandbox source
        (Address.script place).path budget with ⟨f, hf, hf'⟩ | heq
      · rw [hf, hf']
        exact ⟨⟨b, rfl⟩, rfl⟩
      · rw [heq]
        exact ⟨⟨_, (Host.withTripped_self _).symm⟩, rfl⟩

theorem accept_withTripped (a : Assembler) (budget : Option Nat) (e : Entry) :
    SameButTripped (a.accept host budget e) (a.accept (host.withTripped b) budget e) := by
  unfold accept
  cases e with
  | options members =>
    dsimp only
    cases a.state <;> exact ⟨⟨b, rfl⟩, rfl⟩
  | script place source =>
    dsimp only
    cases a.site place with
    | error f => exact ⟨⟨b, rfl⟩, rfl⟩
    | ok site =>
      dsimp only
      obtain ⟨⟨b', hhost⟩, hr⟩ := runScript_withTripped host b a budget site.parents place source
      generalize a.runScript host budget site.parents place source = p at hhost hr ⊢
      generalize a.runScript (host.withTripped b) budget site.parents place source = p'
        at hhost hr ⊢
      obtain ⟨host₁, r⟩ := p
      obtain ⟨host₁', r'⟩ := p'
      dsimp only at hhost hr
      subst hhost hr
      cases r' <;> exact ⟨⟨b', rfl⟩, rfl⟩

theorem acceptAll_withTripped (a : Assembler) (budget : Option Nat) (es : List Entry) :
    SameButTripped (a.acceptAll host budget es) (a.acceptAll (host.withTripped b) budget es) := by
  induction es generalizing host b a with
  | nil => exact ⟨⟨b, rfl⟩, rfl⟩
  | cons e rest ih =>
    obtain ⟨⟨b', hhost⟩, hr⟩ := accept_withTripped host b a budget e
    unfold acceptAll
    generalize a.accept host budget e = p at hhost hr ⊢
    generalize a.accept (host.withTripped b) budget e = p' at hhost hr ⊢
    obtain ⟨host₁, a₁, r⟩ := p
    obtain ⟨host₁', r'⟩ := p'
    dsimp only at hhost hr
    subst hhost hr
    cases r with
    | ok _ => exact ih host₁ b' a₁
    | error f => exact ⟨⟨b', rfl⟩, rfl⟩

end Assembler

namespace Loader

/-- The loader whose last run has overrun its budget, or has not. -/
def withTripped (l : Loader) (b : Bool) : Loader := { l with host := l.host.withTripped b }

theorem assemble_withTripped (l : Loader) (b : Bool) (es : List Entry) :
    Assembler.SameButTripped (l.assemble es) ((l.withTripped b).assemble es) := by
  have hnew : Assembler.new (l.withTripped b).host =
      ((Assembler.new l.host).1.withTripped b, (Assembler.new l.host).2) := by
    unfold Assembler.new withTripped
    dsimp only
    rw [Host.newTable_withTripped]
    generalize l.host.newTable = p
    obtain ⟨host₁, f | globals⟩ := p <;> rfl
  have hconfig : (l.withTripped b).config = l.config := rfl
  unfold assemble
  rw [hnew, hconfig]
  generalize Assembler.new l.host = p
  obtain ⟨host₁, f | a⟩ := p
  · exact ⟨⟨b, rfl⟩, rfl⟩
  · dsimp only
    obtain ⟨⟨b', hhost⟩, hr⟩ :=
      Assembler.acceptAll_withTripped host₁ b a l.config.instructionBudget es
    generalize a.acceptAll host₁ l.config.instructionBudget es = p at hhost hr ⊢
    generalize a.acceptAll (host₁.withTripped b) l.config.instructionBudget es = p' at hhost hr ⊢
    obtain ⟨host₂, a₂, r⟩ := p
    obtain ⟨host₂', r'⟩ := p'
    dsimp only at hhost hr
    subst hhost hr
    cases r <;> exact ⟨⟨b', rfl⟩, rfl⟩

/-- A load does not depend on whether an earlier one has overrun its budget. -/
theorem execute_withTripped (l : Loader) (b : Bool) (es : List Entry) :
    (∃ b', ((l.withTripped b).execute es).1 = (l.execute es).1.withTripped b') ∧
      ((l.withTripped b).execute es).2 = (l.execute es).2 := by
  obtain ⟨⟨b', hhost⟩, hr⟩ := assemble_withTripped l b es
  refine ⟨⟨b', ?_⟩, hr⟩
  exact congrArg (fun host : Host => ({ l with host := { host with
    interpreter := { host.interpreter with held := l.host.interpreter.held } } } : Loader)) hhost

end Loader

end StoryPack
