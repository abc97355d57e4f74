import IndentMarkup.Proofs.Expr.Foresight
import IndentMarkup.Proofs.Expr.Grammar

/-!
# The languages of the grammar

The words of each form of an expression are the tokens that spell one, whichever it is. The rules of
the grammar say which products of languages are inside which language, in the order in which the
readers go through the parts of a form.
-/
namespace IndentMarkup

namespace Grammar

open IndentMarkup.Parser

/-- The words of one token of some kind. -/
def tokenWords (kind : Token → Option String) : Language Token :=
  {ts | ∃ t n, ts = [t] ∧ kind t = some n}

def nameWords : Language Token := tokenWords Token.name?

def keyWords : Language Token := tokenWords Token.key?

def conditionWords : Language Token := {ts | ∃ e, Condition ts e}

def levelWords (k : Nat) : Language Token := {ts | ∃ e, Level k ts e}

def operandsWords (k : Nat) : Language Token := {ts | ∃ rest, Operands k ts rest}

def signedWords : Language Token := {ts | ∃ e, Signed ts e}

/-- The words of members and indices, which may stand behind every target. -/
def accessesWords : Language Token := {ts | ∀ target, ∃ e, Accesses target ts e}

def operandWords : Language Token := {ts | ∃ e, Operand ts e}

def itemsWords : Language Token := {ts | ∃ es, Items ts es}

def entriesWords : Language Token := {ts | ∃ fields, Entries ts fields}

theorem null_mem_operandWords : [.keyword .null] ∈ operandWords := ⟨_, .constant rfl⟩

theorem null_mem_conditionWords : [.keyword .null] ∈ conditionWords :=
  ⟨_, .of_operand (.constant rfl)⟩

theorem mem_conditionWords_of_choice {ts : List Token}
    (h : ts ∈ levelWords 6 * (1 + only (.symbol .question) *
      (conditionWords * (only (.symbol .colon) * conditionWords)))) : ts ∈ conditionWords := by
  obtain ⟨us, ⟨test, hu⟩, vs, hv, rfl⟩ := Language.mem_mul.1 h
  rcases hv with hv | hv
  · rw [(Language.mem_one vs).1 hv, List.append_nil]
    exact ⟨test, .plain hu⟩
  · obtain ⟨ws, hw, rfl⟩ := mem_only_mul.1 hv
    obtain ⟨xs, ⟨whenTrue, hx⟩, ys, hy, rfl⟩ := Language.mem_mul.1 hw
    obtain ⟨zs, ⟨whenFalse, hz⟩, rfl⟩ := mem_only_mul.1 hy
    exact ⟨_, .choice hu hx hz⟩

theorem mem_levelWords_of_run {k : Nat} {ts : List Token}
    (h : ts ∈ levelWords k * operandsWords k) : ts ∈ levelWords (k + 1) := by
  obtain ⟨us, ⟨first, hu⟩, vs, ⟨rest, hv⟩, rfl⟩ := Language.mem_mul.1 h
  exact ⟨_, .run hu hv⟩

theorem mem_operandsWords_of_cons {k : Nat} {s : Symbol} {op : BinaryOp}
    (hs : s.binaryOp? = some op) (hl : op.level = k + 1) {ts : List Token}
    (h : ts ∈ only (.symbol s) * (levelWords k * operandsWords k)) : ts ∈ operandsWords k := by
  obtain ⟨us, hu, rfl⟩ := mem_only_mul.1 h
  obtain ⟨vs, ⟨e, hv⟩, ws, ⟨rest, hw⟩, rfl⟩ := Language.mem_mul.1 hu
  exact ⟨_, .cons (mem_operators_iff.2 ⟨hs, hl⟩) hv hw⟩

theorem mem_signedWords_of_sign {s : Symbol} {op : UnaryOp} (hs : s.unaryOp? = some op)
    {ts : List Token} (h : ts ∈ only (.symbol s) * signedWords) : ts ∈ signedWords := by
  obtain ⟨us, ⟨e, hu⟩, rfl⟩ := mem_only_mul.1 h
  exact ⟨_, .sign (mem_signs_iff.2 hs) hu⟩

theorem mem_signedWords_of_accessed {ts : List Token} (h : ts ∈ operandWords * accessesWords) :
    ts ∈ signedWords := by
  obtain ⟨us, ⟨target, hu⟩, vs, hv, rfl⟩ := Language.mem_mul.1 h
  obtain ⟨e, hv⟩ := hv target
  exact ⟨e, .accessed hu hv⟩

theorem mem_accessesWords_of_nil {ts : List Token} (h : ts ∈ (1 : Language Token)) :
    ts ∈ accessesWords := by
  rw [(Language.mem_one ts).1 h]
  exact fun target => ⟨target, .nil⟩

theorem mem_accessesWords_of_member {ts : List Token}
    (h : ts ∈ only (.symbol .dot) * (nameWords * accessesWords)) : ts ∈ accessesWords := by
  obtain ⟨us, hu, rfl⟩ := mem_only_mul.1 h
  obtain ⟨_, ⟨t, n, rfl, hn⟩, vs, hv, rfl⟩ := Language.mem_mul.1 hu
  intro target
  obtain ⟨e, hv⟩ := hv (.member target n)
  exact ⟨e, .member (name_iff.2 hn) hv⟩

theorem mem_accessesWords_of_index {ts : List Token}
    (h : ts ∈ only (.symbol .lBracket) *
      (conditionWords * (only (.symbol .rBracket) * accessesWords))) : ts ∈ accessesWords := by
  obtain ⟨us, hu, rfl⟩ := mem_only_mul.1 h
  obtain ⟨vs, ⟨position, hp⟩, ws, hw, rfl⟩ := Language.mem_mul.1 hu
  obtain ⟨xs, hx, rfl⟩ := mem_only_mul.1 hw
  intro target
  obtain ⟨e, hx⟩ := hx (.index target position)
  exact ⟨e, .index hp hx⟩

theorem mem_operandWords_of_array {ts : List Token}
    (h : ts ∈ only (.symbol .lBracket) * (itemsWords * only (.symbol .rBracket))) :
    ts ∈ operandWords := by
  obtain ⟨us, hu, rfl⟩ := mem_only_mul.1 h
  obtain ⟨vs, ⟨es, hv⟩, _, rfl, rfl⟩ := Language.mem_mul.1 hu
  exact ⟨_, .array hv⟩

theorem mem_operandWords_of_object {ts : List Token}
    (h : ts ∈ only (.symbol .lBrace) * (entriesWords * only (.symbol .rBrace))) :
    ts ∈ operandWords := by
  obtain ⟨us, hu, rfl⟩ := mem_only_mul.1 h
  obtain ⟨vs, ⟨fields, hv⟩, _, rfl, rfl⟩ := Language.mem_mul.1 hu
  exact ⟨_, .object hv⟩

theorem mem_operandWords_of_parens {ts : List Token}
    (h : ts ∈ only (.symbol .lParen) * (conditionWords * only (.symbol .rParen))) :
    ts ∈ operandWords := by
  obtain ⟨us, hu, rfl⟩ := mem_only_mul.1 h
  obtain ⟨vs, ⟨e, hv⟩, _, rfl, rfl⟩ := Language.mem_mul.1 hu
  exact ⟨_, .parens hv⟩

theorem mem_operandWords_of_call {n : String} {ts : List Token}
    (h : ts ∈ itemsWords * only (.symbol .rParen)) :
    .ident n :: .symbol .lParen :: ts ∈ operandWords := by
  obtain ⟨us, ⟨es, hu⟩, _, rfl, rfl⟩ := Language.mem_mul.1 h
  exact ⟨_, .call hu⟩

/-- The words of a name and perhaps a comma and a second name are those of variables. -/
theorem exists_bindings {ts us : List Token} (ht : ts ∈ nameWords)
    (hu : us ∈ 1 + only (.symbol .comma) * nameWords) :
    ∃ item position, Bindings (ts ++ us) item position := by
  obtain ⟨t, item, rfl, hi⟩ := ht
  rcases hu with hu | hu
  · rw [(Language.mem_one us).1 hu]
    exact ⟨item, none, .one (name_iff.2 hi)⟩
  · obtain ⟨_, ⟨u, position, rfl, hp⟩, rfl⟩ := mem_only_mul.1 hu
    exact ⟨item, some position, .two (name_iff.2 hi) (name_iff.2 hp)⟩

/-- The words of a loop behind its variables. -/
def loopWords : Language Token :=
  only (.keyword .within) * (conditionWords * (only (.symbol .rParen) *
    (only (.symbol .lBrace) * (conditionWords * only (.symbol .rBrace)))))

theorem mem_operandWords_of_loop {ts : List Token}
    (h : ts ∈ only (.keyword .loop) * (only (.symbol .lParen) * (nameWords *
      ((1 + only (.symbol .comma) * nameWords) * loopWords)))) : ts ∈ operandWords := by
  obtain ⟨_, h₁, rfl⟩ := mem_only_mul.1 h
  obtain ⟨_, h₂, rfl⟩ := mem_only_mul.1 h₁
  obtain ⟨as, ha, _, h₃, rfl⟩ := Language.mem_mul.1 h₂
  obtain ⟨bs, hb, _, h₄, rfl⟩ := Language.mem_mul.1 h₃
  obtain ⟨_, h₅, rfl⟩ := mem_only_mul.1 h₄
  obtain ⟨cs, ⟨source, hc⟩, _, h₆, rfl⟩ := Language.mem_mul.1 h₅
  obtain ⟨_, h₇, rfl⟩ := mem_only_mul.1 h₆
  obtain ⟨_, h₈, rfl⟩ := mem_only_mul.1 h₇
  obtain ⟨ds, ⟨body, hd⟩, _, rfl, rfl⟩ := Language.mem_mul.1 h₈
  obtain ⟨item, position, hv⟩ := exists_bindings ha hb
  have hl := Operand.loop hv hc hd
  rw [List.append_assoc] at hl
  exact ⟨_, hl⟩

theorem mem_items_of_nil {close : Symbol} {ts : List Token} (h : ts ∈ only (.symbol close)) :
    ts ∈ itemsWords * only (.symbol close) := by
  have hn : [] ∈ itemsWords := ⟨[], .nil⟩
  exact Language.append_mem_mul hn h

theorem mem_items_of_cons {close : Symbol} {ts : List Token}
    (h : ts ∈ conditionWords * (only (.symbol .comma) * (itemsWords * only (.symbol close)) +
      only (.symbol close))) : ts ∈ itemsWords * only (.symbol close) := by
  obtain ⟨us, ⟨e, hu⟩, vs, hv, rfl⟩ := Language.mem_mul.1 h
  rcases hv with hv | hv
  · obtain ⟨ws, hw, rfl⟩ := mem_only_mul.1 hv
    obtain ⟨xs, ⟨es, hx⟩, ys, hy, rfl⟩ := Language.mem_mul.1 hw
    rw [← List.cons_append, ← List.append_assoc]
    exact Language.append_mem_mul ⟨_, .cons hu hx⟩ hy
  · exact Language.append_mem_mul ⟨_, .last hu⟩ hv

theorem mem_entries_of_nil {ts : List Token} (h : ts ∈ only (.symbol .rBrace)) :
    ts ∈ entriesWords * only (.symbol .rBrace) := by
  have hn : [] ∈ entriesWords := ⟨[], .nil⟩
  exact Language.append_mem_mul hn h

theorem mem_entries_of_cons {ts : List Token}
    (h : ts ∈ keyWords * (only (.symbol .colon) * (conditionWords *
      (only (.symbol .comma) * (entriesWords * only (.symbol .rBrace)) +
        only (.symbol .rBrace))))) : ts ∈ entriesWords * only (.symbol .rBrace) := by
  obtain ⟨_, ⟨t, k, rfl, hk⟩, _, h₁, rfl⟩ := Language.mem_mul.1 h
  obtain ⟨_, h₂, rfl⟩ := mem_only_mul.1 h₁
  obtain ⟨us, ⟨e, hu⟩, vs, hv, rfl⟩ := Language.mem_mul.1 h₂
  rcases hv with hv | hv
  · obtain ⟨ws, hw, rfl⟩ := mem_only_mul.1 hv
    obtain ⟨xs, ⟨fields, hx⟩, ys, hy, rfl⟩ := Language.mem_mul.1 hw
    have he : _ ∈ entriesWords := ⟨_, .cons (key_iff.2 hk) hu hx⟩
    have hm := Language.append_mem_mul he hy
    simpa using hm
  · have he : _ ∈ entriesWords := ⟨_, .last (key_iff.2 hk) hu⟩
    have hm := Language.append_mem_mul he hv
    simpa using hm

end Grammar

end IndentMarkup
