/-
The compiled script that makes protected calls.

* `Guard.factory`, `Guard.wrapper` — the compiled script, and the function that
  it returns;
* `Guard.compile_eq` — the script compiles to the former;
* `Guard.factory_spec`, `Guard.wrapper_spec` — their instructions.
-/
import StoryPack.Sandbox.Host
import Mathlib.Tactic.Tauto

namespace StoryPack.Guard

open Script

/-- The instructions of the function that a protected call is: it packs what the raw call gives,
raises an error when the run has tripped, and unpacks otherwise. -/
def wrapperCode : Array Instr :=
  #[.move (.register 1) (.upvalue 0),
    .move (.register 2) (.upvalue 1),
    .varargs .all,
    .call 2 0 true .all,
    .call 1 0 true (.registers 0 1),
    .move (.register 1) (.upvalue 2),
    .call 1 0 false (.test false 12),
    .index 1 (.upvalue 3) (.constant (.str "error".toUTF8)),
    .move (.register 2) (.upvalue 4),
    .move (.register 3) (.constant (.int 0)),
    .call 1 2 false .none,
    .jump 12,
    .move (.register 1) (.upvalue 5),
    .move (.register 2) (.register 0),
    .move (.register 3) (.constant (.int 1)),
    .index 4 (.register 0) (.constant (.str "n".toUTF8)),
    .tailCall 1 3 false,
    .ret 0 0 false]

/-- The instructions of the script, which makes that function of a raw call. -/
def factoryCode : Array Instr :=
  #[.varargs (.registers 0 3),
    .freshBox 0 (.register 0),
    .freshBox 1 (.register 1),
    .freshBox 2 (.register 2),
    .index 5 (.upvalue 0) (.constant (.str "table".toUTF8)),
    .index 3 (.register 5) (.constant (.str "pack".toUTF8)),
    .index 5 (.upvalue 0) (.constant (.str "table".toUTF8)),
    .index 4 (.register 5) (.constant (.str "unpack".toUTF8)),
    .freshBox 3 (.register 3),
    .freshBox 4 (.register 4),
    .closure 5 0,
    .ret 5 1 false,
    .ret 0 0 false]

/-- What a compilation gives, if it succeeds. -/
def compiled : Except SourceFault Proto → Proto
  | .ok p => p
  | .error _ => default

/-- The compiled script. -/
@[irreducible] def factory : Proto :=
  compiled (compile Host.guardName.toUTF8 Host.guardSource.toUTF8)

/-- The compiled function that it returns. -/
def wrapper : Proto := factory.protos.getD 0 default

/-- What a compiled script has to be for protected calls. -/
def isFactory (r : Except SourceFault Proto) : Bool :=
  match r with
  | .error _ => false
  | .ok p =>
    let q := p.protos.getD 0 default
    p.code = factoryCode && p.boxes = 5 && p.parameters = 0 && p.isVararg && p.registers = 6 &&
      q.code = wrapperCode && q.boxes = 0 && q.parameters = 0 && q.isVararg && q.registers = 5 &&
      q.captures = #[.box 3, .box 0, .box 1, .upvalue 0, .box 2, .box 4]

theorem isFactory_compile :
    isFactory (compile Host.guardName.toUTF8 Host.guardSource.toUTF8) = true := by
  decide +kernel

theorem exists_factory : ∃ p, compile Host.guardName.toUTF8 Host.guardSource.toUTF8 = .ok p ∧
    isFactory (.ok p) = true := by
  have h := isFactory_compile
  generalize compile Host.guardName.toUTF8 Host.guardSource.toUTF8 = r at h
  cases r with
  | error f => cases h
  | ok p => exact ⟨p, rfl, h⟩

theorem compile_eq : compile Host.guardName.toUTF8 Host.guardSource.toUTF8 = .ok factory := by
  obtain ⟨p, hp, -⟩ := exists_factory
  have hfactory : factory = p := by
    unfold factory
    exact congrArg compiled hp
  exact hp.trans (congrArg Except.ok hfactory.symm)

theorem isFactory_factory : isFactory (.ok factory) = true := by
  obtain ⟨p, hp, h⟩ := exists_factory
  have hfactory : factory = p := by
    unfold factory
    exact congrArg compiled hp
  exact hfactory ▸ h

theorem factory_spec : factory.code = factoryCode ∧ factory.boxes = 5 ∧ factory.parameters = 0 ∧
    factory.isVararg = true ∧ factory.registers = 6 := by
  have h := isFactory_factory
  generalize factory = p at h
  simp only [isFactory, Bool.and_eq_true, decide_eq_true_eq] at h
  tauto

theorem wrapper_spec : wrapper.code = wrapperCode ∧ wrapper.boxes = 0 ∧ wrapper.parameters = 0 ∧
    wrapper.isVararg = true ∧ wrapper.registers = 5 ∧
    wrapper.captures = #[.box 3, .box 0, .box 1, .upvalue 0, .box 2, .box 4] := by
  have h := isFactory_factory
  unfold wrapper
  generalize factory = p at h
  simp only [isFactory, Bool.and_eq_true, decide_eq_true_eq] at h
  tauto

end StoryPack.Guard
