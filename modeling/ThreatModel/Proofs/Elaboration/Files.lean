import Mathlib
import ThreatModel.Proofs.Callable.Declared
import ThreatModel.Proofs.Elaboration.Inlined

set_option autoImplicit false

namespace ThreatModel

open Result

def Declarations.IsFile (D : Declarations) (key : String) : Prop :=
  ∃ decl, D.stores.stores.find? key = some decl ∧ decl.kind = .filesys

namespace Context

variable {ctx : Context} {scope : Scope} {b b' : Build}

theorem permit_eq_ok {action : StoreAction} {store : StoreDecl}
    (permitted : ctx.permit action store b = .ok ((), b')) (file : store.kind = .filesys)
    (writes : action ≠ .read) : ∃ d, ctx.frame.definition = some d ∧ d.role = .builtin := by
  cases inside : ctx.frame.definition with
  | none =>
    simp only [permit, inside, file, Option.isNone_none, if_true, Builder.bind_eq_ok_iff,
      Builder.ite_apply] at permitted
    obtain ⟨⟨⟩, b₁, -, permitted⟩ := permitted
    simp [writes] at permitted
  | some d =>
    refine ⟨d, rfl, ?_⟩
    by_contra other
    simp [permit, inside, file, writes, other] at permitted

theorem find?_name_of_resolveStore {target : String} {store : StoreDecl} (decls : ctx.decls.Sound)
    (resolved : ctx.resolveStore scope target b = .ok (store, b')) :
    ctx.decls.stores.stores.find? store.name = some store := by
  rcases resolveStore_eq_ok resolved with ⟨name, -, found⟩ | ⟨-, found⟩
  · rwa [(decls.store found).named]
  · rwa [(decls.store found).named]

end Context

theorem length_arguments {ctx : Context} {scope : Scope} : ∀ {es : List Expr} {ends ends' : Ends}
    {b b' : Build} {args : List Argument},
    Elaborates (.arguments es ctx scope ends b args ends' b') → args.length = es.length
  | [], _, _, _, _, _, derived => by
    cases derived
    rfl
  | e :: es, _, _, _, _, _, derived => by
    cases derived with
    | storeArgument _ rest | valueArgument _ _ rest => simp [length_arguments rest]

def Definition.Fits (d : Definition) (args : List Argument) : Prop :=
  d.role = .builtin → d ∈ Definition.builtins ∧ args.length = d.params.length

theorem Callables.Sound.fits_plan {C : Callables} (sound : C.Sound) {d : Definition}
    {args : List Argument} (fits : d.Fits args) {subjects : List String} {P : Policy}
    {intercept : Bool} : ∀ a ∈ C.plan d subjects P intercept, a.definition.Fits args := by
  intro a member
  simp only [plan, List.mem_cons, List.mem_map] at member
  rcases member with rfl | ⟨attack, among, rfl⟩
  · exact fits
  · intro isBuiltin
    have listed : attack ∈ C.overridesOf d.name := by
      split at among
      · simp at among
      · exact List.mem_of_mem_filter among
    simp [sound.overrides _ _ listed] at isBuiltin

section Builtins

variable {D : Declarations} {ctx : Context} {ends ends' ends₁ : Ends} {b b₁ b' : Build}
  {flow : Flow} {scope scope' : Scope} {action : Action} {x : String} {binds : Table String String}
  {a : Argument} {loc : Option Location}

theorem draws_params {pairs : List (String × Argument)}
    (derived : Elaborates (.params pairs ctx scope ends b scope' ends' b')) :
    Build.Draws (fun _ action => ∃ x t, action = .assign x t) b b' := by
  induction pairs generalizing scope ends b with
  | nil =>
    cases derived
    exact .refl _
  | cons pair pairs ih =>
    cases derived with
    | storeParam _ rest => exact ih rest
    | valueParam _ rest => exact Build.Draws.after ((ih rest).enter ⟨_, _, rfl⟩) rfl

theorem last_of_params (pairs : List (String × Argument)) {arg : Argument}
    (derived : Elaborates (.params (pairs ++ [(x, arg)]) ctx scope ends b scope' ends' b')) :
    (∃ name, scope'.find? x = some (.store name)) ∨
      b.graph.size < b'.graph.size ∧ ends' = [b'.graph.size - 1] := by
  induction pairs generalizing scope ends b with
  | nil =>
    cases derived with
    | storeParam declared rest =>
      cases rest
      exact .inl ⟨_, by rw [Scope.find?_declare declared, if_pos rfl]⟩
    | valueParam _ rest =>
      cases rest
      exact .inr (by simp)
  | cons pair pairs ih =>
    cases derived with
    | storeParam _ rest => exact ih rest
    | valueParam _ rest =>
      refine (ih rest).imp_right fun last => ⟨?_, last.2⟩
      have := last.1
      simp only [Build.size_append, Build.graph_takeVar] at this
      omega

theorem unknown_of_store {name : String} {found : Option Term}
    (bound : scope.find? x = some (.store name)) : ctx.known scope binds x b ≠ .ok (found, b') := by
  simp [Context.known, bound]

theorem body_of_send
    (body : Elaborates (.command (.seq [.store .insert "c" (.ident "m" none) none]) ctx
      { ends, scope } b flow b')) :
    (∀ name, scope.find? "m" ≠ some (.store name)) ∧
      ∃ store t, b' = b.append (ctx.enter (toString 0)) (.insert store t) ends := by
  cases body with
  | seq body =>
  cases body with
  | next first rest =>
  cases rest
  cases first with
  | take takes => simp at takes
  | put _ _ _ value =>
  cases value with
  | ident known => exact ⟨fun name bound => unknown_of_store bound known, _, _, rfl⟩

theorem exists_of_take {f : String} {e : Expr} {action : StoreAction} {flow' : Flow}
    (takes : action = .consume ∨ action = .read)
    (derived : Elaborates (.command (.store action f e loc) ctx flow b flow' b')) :
    ∃ (b₁ : Build) (store : StoreDecl) (pattern : Term) (binds : Table String String)
      (scope : Scope), b₁.graph = b.graph ∧
      ctx.resolveStore flow.scope f b = .ok (store, b) ∧
      ctx.plain flow.scope true e .empty b = .ok ((pattern, binds), b₁) ∧
      ctx.declareAll flow.scope binds.entries b' = .ok (scope, b') ∧
      flow' = { flow with ends := [b.graph.size], scope } ∧
      b' = b₁.append ctx (action.node store.name pattern binds.values) flow.ends := by
  cases derived with
  | put puts => rcases takes with rfl | rfl <;> simp at puts
  | take _ resolved _ read declared =>
    have same := (Context.reads_plain read).graph
    exact ⟨_, _, _, _, _, same, resolved, read, declared, by rw [same], rfl⟩

theorem body_of_take {f : String} {action : StoreAction}
    (takes : action = .consume ∨ action = .read)
    (body : Elaborates (.command (.seq [.store action f (.ident x none) none,
      .ret (.ident x none) none]) ctx { ends, scope } b flow b')) :
    ∃ (b₁ : Build) (store : String) (pattern : Term) (binds : List String),
      b₁.graph = b.graph ∧
      (b' = b₁.append (ctx.enter (toString 0)) (action.node store pattern binds) ends ∨
        ∃ y t, b' = (b₁.append (ctx.enter (toString 0)) (action.node store pattern binds)
          ends).append (ctx.enter (toString 1)) (.assign y t) [b₁.graph.size]) := by
  cases body with
  | seq body =>
  cases body with
  | next first rest =>
  cases rest with
  | next second rest =>
  cases rest
  obtain ⟨b₁, store, pattern, binds, scope', same, -, -, -, rfl, rfl⟩ := exists_of_take takes first
  rw [← same] at second
  refine ⟨b₁, store.name, pattern, binds.values, same, ?_⟩
  cases second with
  | retValue _ _ value =>
    cases value
    exact .inr ⟨_, _, rfl⟩
  | retNothing _ _ value =>
    cases value
    exact .inl rfl

theorem find?_declareAll {entries : List (String × String)} {y : String}
    (apart : ∀ entry ∈ entries, entry.1 ≠ y)
    (declared : ctx.declareAll scope entries b = .ok (scope', b')) :
    scope'.find? y = scope.find? y := by
  induction entries generalizing scope b with
  | nil =>
    obtain ⟨rfl, -⟩ : scope = scope' ∧ b = b' := by simpa [Context.declareAll] using declared
    rfl
  | cons entry rest ih =>
    obtain ⟨here, others⟩ := List.forall_mem_cons.mp apart
    simp only [Context.declareAll, Builder.bind_eq_ok_iff, Context.declare_eq_ok_iff] at declared
    obtain ⟨scope₁, b₁, ⟨first, rfl⟩, declared⟩ := declared
    rw [ih others declared, Scope.find?_declare first, if_neg here]

theorem bound_by_ident {pattern : Term}
    (read : ctx.plain scope true (.ident x loc) .empty b = .ok ((pattern, binds), b')) :
    ∀ entry ∈ binds.entries, entry.1 = x := by
  simp only [Context.plain, Builder.bind_eq_ok_iff] at read
  obtain ⟨found, b₁, -, read⟩ := read
  cases found with
  | some t =>
    simp only [Builder.pure_apply] at read
    cases read
    simp [Table.empty]
  | none =>
    simp only [if_true, Builder.bind_eq_ok_iff, Builder.freshVar_apply,
      Builder.pure_apply] at read
    obtain ⟨y, b₂, ⟨⟩, ⟨⟩⟩ := read
    simp [Table.empty, Table.insert, Table.write]

theorem store_of_resolveStore {ctx' : Context} {b₂ b₃ : Build} {target : String}
    {store store' : StoreDecl} (decls : ctx'.decls = ctx.decls)
    (same : scope'.find? target = scope.find? target)
    (one : ctx.resolveStore scope target b = .ok (store, b'))
    (two : ctx'.resolveStore scope' target b₂ = .ok (store', b₃)) : store' = store := by
  rcases Context.resolveStore_eq_ok one with ⟨name, bound, found⟩ | ⟨unbound, found⟩ <;>
    rcases Context.resolveStore_eq_ok two with ⟨name', bound', found'⟩ | ⟨unbound', found'⟩ <;>
    simp_all

theorem body_of_write
    (body : Elaborates (.command (.seq [.store .consume "f" (.ident "old$" none) none,
      .store .insert "f" (.ident "m" none) none]) ctx { ends, scope } b flow b')) :
    ∃ (b₁ : Build) (store : String) (pattern t : Term) (binds : List String),
      b₁.graph = b.graph ∧
      b' = (b₁.append (ctx.enter (toString 0)) (.consume store pattern binds) ends).append
        (ctx.enter (toString 1)) (.insert store t) [b₁.graph.size] := by
  cases body with
  | seq body =>
  cases body with
  | next first rest =>
  cases rest with
  | next second rest =>
  cases rest
  obtain ⟨b₁, store, pattern, binds, scope', same, resolved, read, declared, rfl, rfl⟩ :=
    exists_of_take (.inl rfl) first
  rw [← same] at second
  cases second with
  | take takes => simp at takes
  | put _ resolved' _ value =>
  cases value
  have unbound : scope'.find? "f" = scope.find? "f" := by
    refine find?_declareAll (fun entry member => ?_) declared
    rw [bound_by_ident read entry member]
    decide
  rw [store_of_resolveStore (by rfl) unbound resolved resolved']
  exact ⟨b₁, store.name, pattern, _, binds.values, same, rfl⟩

end Builtins

end ThreatModel
