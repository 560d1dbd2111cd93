import ThreatModel.Model.Kind
import ThreatModel.Term.Basic
import ThreatModel.Text.Quoted

set_option autoImplicit false

namespace ThreatModel

inductive Category where
  | declaration
  | scoping
  | policy
  | theory
  | structural
  deriving DecidableEq, Repr

def Category.word : Category → String
  | .declaration => "declaration"
  | .scoping => "scoping"
  | .policy => "policy"
  | .theory => "theory"
  | .structural => "structural"

inductive FlawKind where
  | general
  | duplicateSymbol
  | duplicateType
  | unknownSymbol
  | unknownType
  | arityMismatch
  | typeMismatch
  | unboundVariable
  | duplicateBinding
  | freeLemmaVariable
  | accessViolation
  | theoryDivergence
  | noMatch
  | recursiveSyscall
  | unknownEventTag
  | factAbsent
  | misplacedReturn
  | malformedSystem
  deriving DecidableEq, Repr

namespace FlawKind

def word : FlawKind → String
  | .general => "CompileError"
  | .duplicateSymbol => "DuplicateSymbol"
  | .duplicateType => "DuplicateType"
  | .unknownSymbol => "UnknownSymbol"
  | .unknownType => "UnknownType"
  | .arityMismatch => "ArityMismatch"
  | .typeMismatch => "TypeMismatch"
  | .unboundVariable => "UnboundVariable"
  | .duplicateBinding => "DuplicateBinding"
  | .freeLemmaVariable => "FreeLemmaVariable"
  | .accessViolation => "AccessViolation"
  | .theoryDivergence => "TheoryDivergence"
  | .noMatch => "NoMatch"
  | .recursiveSyscall => "RecursiveSyscall"
  | .unknownEventTag => "UnknownEventTag"
  | .factAbsent => "FactAbsent"
  | .misplacedReturn => "MisplacedReturn"
  | .malformedSystem => "MalformedSystem"

def all : List FlawKind :=
  [.general, .duplicateSymbol, .duplicateType, .unknownSymbol, .unknownType, .arityMismatch,
   .typeMismatch, .unboundVariable, .duplicateBinding, .freeLemmaVariable, .accessViolation,
   .theoryDivergence, .noMatch, .recursiveSyscall, .unknownEventTag, .factAbsent,
   .misplacedReturn, .malformedSystem]

def ofWord? (word : String) : Option FlawKind := all.find? fun kind => kind.word == word

def category : FlawKind → Category
  | .duplicateSymbol | .duplicateType | .unknownSymbol | .unknownType | .arityMismatch
  | .typeMismatch => .declaration
  | .unboundVariable | .duplicateBinding | .freeLemmaVariable => .scoping
  | .accessViolation => .policy
  | .theoryDivergence | .noMatch => .theory
  | .general | .recursiveSyscall | .unknownEventTag | .factAbsent | .misplacedReturn
  | .malformedSystem => .structural

end FlawKind

inductive Cause where
  | stated (kind : FlawKind) (text : String)
  -- Theories
  | symbolTwice (symbol : String) (arity : Nat)
  | negativeArity (symbol : String) (arity : Int)
  | undeclaredSymbol (symbol : String)
  | symbolArity (symbol : String) (used declared : Nat)
  | unsupportedEquation (form : String)
  | headlessEquation (equation : String)
  | looseVariables (equation : String) (names : List String)
  | neverFires (equation : String) (left right : Term)
  | diverged (limit : Int) (last : Term)
  | mismatch (pattern term : Term)
  -- Types and grants
  | typeTwice (name : String) (kind : TypeKind)
  | unknownType (name : String)
  | notAllowed (subject : String) (object : Option String) (operation : String)
  | noAttackerGrant (attack : String) (subjects : List String)
  -- Stores
  | factAbsent (fact : Term) (store : String)
  | unknownStore (name : String)
  | removalNeverSucceeds (term : Term) (store : String)
  -- Syscalls and attacks
  | nameTaken (name owner : String)
  | parameterTwice (parameter owner : String)
  | overridesNoSyscall (attack target : String)
  | overrideArity (attack : String) (taken : Nat) (target : String) (expected : Nat)
  | passiveTouches (attack : String) (action : StoreAction) (store : String)
  | passiveInvokes (attack callee : String)
  | callArity (callee : String) (expected got : Nat)
  | recursiveCalls (chain : List String)
  -- Declarations
  | nameIsSymbol (name : String)
  | grantsNoAttack (subject operation : String)
  | storeTypeUnknown (type store : String)
  | storeKind (store type : String) (kind expected : TypeKind)
  | contentNotPublic (name owner : String)
  | unsupportedContent (owner : String)
  | templateTwice (name : String)
  | processTypeUnknown (type process : String)
  | processKind (process type : String) (kind : TypeKind)
  | processParameterTwice (parameter process : String)
  | parameterTypeUnknown (type parameter : String)
  | parameterKind (parameter process : String)
  | noSystem
  | noInstances
  | noLemmas
  | instanceTwice (label : String)
  | unknownTemplate (name : String)
  | instanceArity (template : String) (expected got : Nat)
  | argumentType (argument : String) (actual : Option String) (parameter template expected : String)
  | lemmaTwice (name : String)
  -- Bodies of processes, syscalls and attacks
  | parameterType (store : String) (actual : Option String) (parameter expected : String)
  | unsupportedCommand (form : String)
  | boundTwice (name : String)
  | misplacedReturn
  | notAStore (name : String)
  | fileAction (action : StoreAction) (store : String)
  | readNeedsFile (store : String) (kind : TypeKind)
  | unknownCallee (name : String)
  | activeAttackCalled (name target : String)
  | noResult (callee : String)
  | callInPattern (callee : String)
  | unsupportedExpression (form : String)
  | storeAsValue (name : String)
  | unbound (name : String)
  -- Lemmas
  | noFormula (name : String)
  | noEvents (name : String)
  | missingEvent (name : String)
  | unsupportedFormula (form : String)
  | notAnIndex (name : String)
  | freeIndex (name : String)
  | indexAsTerm (name : String)
  | freeVariable (name : String)
  | unknownTag (tag : String)
  | tagArity (tag : String) (emitted : List Nat) (used : Nat)
  | unsupportedLemmaTerm (form : String)
  deriving DecidableEq, Repr

namespace Cause

def kind : Cause → FlawKind
  | .stated kind _ => kind
  | .symbolTwice .. | .nameTaken .. | .parameterTwice .. | .nameIsSymbol .. | .templateTwice ..
  | .processParameterTwice .. | .instanceTwice .. | .lemmaTwice .. => .duplicateSymbol
  | .typeTwice .. => .duplicateType
  | .negativeArity .. | .undeclaredSymbol .. | .symbolArity .. | .unsupportedEquation ..
  | .unknownStore .. | .overridesNoSyscall .. | .grantsNoAttack .. | .unsupportedContent ..
  | .unknownTemplate .. | .unsupportedCommand .. | .unknownCallee .. | .callInPattern ..
  | .unsupportedExpression .. | .unsupportedFormula .. | .unsupportedLemmaTerm .. => .unknownSymbol
  | .unknownType .. | .storeTypeUnknown .. | .processTypeUnknown .. | .parameterTypeUnknown .. =>
      .unknownType
  | .overrideArity .. | .callArity .. | .instanceArity .. => .arityMismatch
  | .storeKind .. | .processKind .. | .parameterKind .. | .argumentType .. | .parameterType ..
  | .notAStore .. | .fileAction .. | .readNeedsFile .. | .storeAsValue .. => .typeMismatch
  | .looseVariables .. | .contentNotPublic .. | .noResult .. | .unbound .. => .unboundVariable
  | .boundTwice .. => .duplicateBinding
  | .noFormula .. | .notAnIndex .. | .freeIndex .. | .indexAsTerm .. | .freeVariable .. =>
      .freeLemmaVariable
  | .notAllowed .. | .noAttackerGrant .. | .passiveTouches .. | .passiveInvokes ..
  | .activeAttackCalled .. => .accessViolation
  | .diverged .. => .theoryDivergence
  | .headlessEquation .. | .neverFires .. | .mismatch .. => .noMatch
  | .recursiveCalls .. => .recursiveSyscall
  | .noEvents .. | .missingEvent .. | .unknownTag .. | .tagArity .. => .unknownEventTag
  | .factAbsent .. | .removalNeverSucceeds .. => .factAbsent
  | .misplacedReturn => .misplacedReturn
  | .noSystem | .noInstances | .noLemmas => .malformedSystem

def typeText : Option String → String
  | some name => name
  | none => "none"

def message : Cause → String
  | .stated _ text => text
  | .symbolTwice f arity => s!"Function symbol '{f}' is already declared as {f}/{arity}."
  | .negativeArity f arity => s!"Function symbol '{f}' has negative arity {arity}."
  | .undeclaredSymbol f => s!"Undeclared function symbol '{f}'."
  | .symbolArity f used declared =>
      s!"Function symbol '{f}' used with {used} argument(s), declared {f}/{declared}."
  | .unsupportedEquation form => s!"Unsupported expression in equation: {form}"
  | .headlessEquation equation =>
      s!"Left-hand side of equation '{equation}' must be a function application."
  | .looseVariables equation names =>
      s!"Right-hand side of equation '{equation}' introduces variables absent from the left: "
        ++ Text.quotedList names ++ "."
  | .neverFires equation left right =>
      s!"Equation '{equation}' can never fire: its instance normalizes to {left.text}, "
        ++ s!"expected {right.text}."
  | .diverged limit last =>
      s!"Rewriting did not terminate within {limit} steps (last term: {last.text})."
  | .mismatch pattern term => s!"Pattern {pattern.text} does not match {term.text}."
  | .typeTwice name kind => s!"Type '{name}' is already declared as {kind.word}."
  | .unknownType name => s!"Type '{name}' is not declared."
  | .notAllowed subject object operation =>
      s!"Processes of type '{subject}' are not allowed to invoke '{operation}'"
        ++ (match object with
          | none | some "" => ""
          | some type => s!" on '{type}'")
        ++ "."
  | .noAttackerGrant attack subjects =>
      s!"No attacker grant for '{attack}' on any of " ++ Text.quotedList subjects ++ "."
  | .factAbsent fact store => s!"Fact {fact.text} is not present in store '{store}'."
  | .unknownStore name => s!"No channel or file named '{name}'."
  | .removalNeverSucceeds term store =>
      s!"Removal of {term.text} from '{store}' can never succeed: "
        ++ "no process inserts a matching fact."
  | .nameTaken name owner => s!"'{name}' is already declared ({owner})."
  | .parameterTwice parameter owner => s!"Parameter '{parameter}' appears twice in '{owner}'."
  | .overridesNoSyscall attack target =>
      s!"Attack '{attack}' overrides '{target}', which is not a declared syscall."
  | .overrideArity attack taken target expected =>
      s!"Attack '{attack}' takes {taken} parameter(s) but '{target}' takes {expected}."
  | .passiveTouches attack action store =>
      s!"Passive attack '{attack}' may only insert into the '{attackerStore}' store, "
        ++ s!"found {action.word} on '{store}'."
  | .passiveInvokes attack callee => s!"Passive attack '{attack}' may not invoke '{callee}'."
  | .callArity callee expected got => s!"'{callee}' expects {expected} argument(s), got {got}."
  | .recursiveCalls chain => "Recursive call chain: " ++ " -> ".intercalate chain ++ "."
  | .nameIsSymbol name => s!"'{name}' is already declared as a function symbol."
  | .grantsNoAttack subject operation =>
      s!"Attacker grant for '{subject}' names '{operation}', which is not a declared attack."
  | .storeTypeUnknown type store => s!"Type '{type}' of '{store}' is not declared."
  | .storeKind store type kind expected =>
      s!"'{store}' is declared with type '{type}' of kind {kind.word}, expected {expected.word}."
  | .contentNotPublic name owner =>
      s!"'{name}' in the initial content of '{owner}' is not a public constant."
  | .unsupportedContent owner => s!"Unsupported expression in the initial content of '{owner}'."
  | .templateTwice name => s!"Process template '{name}' is already declared."
  | .processTypeUnknown type process => s!"Type '{type}' of process '{process}' is not declared."
  | .processKind process type kind => s!"Process '{process}' has type '{type}' of kind {kind.word}."
  | .processParameterTwice parameter process =>
      s!"Parameter '{parameter}' appears twice in process '{process}'."
  | .parameterTypeUnknown type parameter =>
      s!"Type '{type}' of parameter '{parameter}' is not declared."
  | .parameterKind parameter process =>
      s!"Parameter '{parameter}' of '{process}' must be a channel or file type."
  | .noSystem => "The model has no system declaration."
  | .noInstances => "The system composes no process instances."
  | .noLemmas => "The system declares no lemmas."
  | .instanceTwice label => s!"Process instance '{label}' is declared twice."
  | .unknownTemplate name => s!"No process template named '{name}'."
  | .instanceArity template expected got =>
      s!"'{template}' expects {expected} channel/file argument(s), got {got}."
  | .argumentType argument actual parameter template expected =>
      s!"'{argument}' has type '{typeText actual}' but parameter '{parameter}' of '{template}' "
        ++ s!"expects '{expected}'."
  | .lemmaTwice name => s!"Lemma '{name}' is declared twice."
  | .parameterType store actual parameter expected =>
      s!"'{store}' has type '{typeText actual}', parameter '{parameter}' expects '{expected}'."
  | .unsupportedCommand form => s!"Unsupported command: {form}"
  | .boundTwice name => s!"'{name}' is already bound in this scope."
  | .misplacedReturn => "'return' is only allowed inside syscall and attack bodies."
  | .notAStore name => s!"'{name}' is a value, not a channel or file."
  | .fileAction action store =>
      s!"'{action.word}' cannot be used on file '{store}'; use 'write' to change its content."
  | .readNeedsFile store kind => s!"'read' needs a file, '{store}' is a {kind.word}."
  | .unknownCallee name => s!"'{name}' is neither a function symbol, a syscall nor an attack."
  | .activeAttackCalled name target =>
      s!"Active attack '{name}' cannot be invoked directly; "
        ++ s!"it replaces '{target}' at authorised call sites."
  | .noResult callee =>
      s!"'{callee}' can finish without returning a value, but its result is used."
  | .callInPattern callee => s!"Call to '{callee}' is not allowed in a guard or pattern."
  | .unsupportedExpression form => s!"Unsupported expression: {form}"
  | .storeAsValue name => s!"Channel or file '{name}' cannot be used as a value."
  | .unbound name => s!"'{name}' is not bound."
  | .noFormula name => s!"Lemma '{name}' has no formula."
  | .noEvents name => s!"Reachability lemma '{name}' lists no events."
  | .missingEvent name => s!"Correspondence lemma '{name}' needs both events."
  | .unsupportedFormula form => s!"Unsupported formula: {form}"
  | .notAnIndex name => s!"'{name}' is used as a trace index; index variables start with '#'."
  | .freeIndex name => s!"Trace index '{name}' is not bound by a quantifier."
  | .indexAsTerm name => s!"Trace index '{name}' cannot be used as a term."
  | .freeVariable name => s!"'{name}' is not bound by a quantifier."
  | .unknownTag tag => s!"No process emits an event tagged '{tag}'."
  | .tagArity tag emitted used =>
      s!"Event '{tag}' is emitted with arity " ++ Text.bracketed (emitted.map toString)
        ++ s!", used with {used}."
  | .unsupportedLemmaTerm form => s!"Unsupported expression in lemma: {form}"

end Cause

end ThreatModel
