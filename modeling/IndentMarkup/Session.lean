import IndentMarkup.Template

/-!
# Sessions

In a session, scopes and engines are stacked up, names and functions are defined at the top, and
expressions and templates are evaluated there. A program keeps the engine that was at the top when
it was written: functions defined later do not reach it.
-/
namespace IndentMarkup

/-- The state of a session: the innermost scope, the engines from the top down, and the template
loaded last with its program. -/
structure Session where
  scope : Scope
  engine : Engine
  below : List Engine
  loaded : Option (Template × Program)

namespace Session

/-- A session in a scope, with one engine without host functions. -/
def start (scope : Scope) : Session := ⟨scope, .empty, [], none⟩

def push (s : Session) : Session := { s with scope := s.scope.child }

/-- Leaves the current scope; the outermost one stays. -/
def pop (s : Session) : Session := { s with scope := s.scope.parent?.getD s.scope }

def bind (s : Session) (name : String) (value : Value) : Session :=
  { s with scope := s.scope.bind name value }

/-- Defines a host function in the engine at the top. -/
def define (s : Session) (name : String) (f : HostFunction) : Session :=
  { s with engine := s.engine.define name f }

/-- Puts a copy of the engine at the top on top of it. -/
def fork (s : Session) : Session := { s with below := s.engine :: s.below }

/-- Takes the engine at the top away; the last engine stays. -/
def unfork (s : Session) : Session :=
  match s.below with
  | [] => s
  | engine :: rest => { s with engine := engine, below := rest }

/-- Compiles a template and writes its program for the engine at the top. -/
def load (s : Session) (fallbackTag source : String) : Session :=
  let template := Template.compile fallbackTag source
  { s with loaded := some (template, template.generate s.engine) }

/-- The output of the loaded template with the engine at the top, and that of its program. -/
def render (s : Session) : Option (String × String) :=
  s.loaded.map fun t => (t.1.render s.engine s.scope, t.2.render s.scope)

end Session

end IndentMarkup
