import Peen.Session.Message
import Mathlib.Data.List.Forall2

/-!
# The reconstruction plan

A plan links the messages of an assembled prompt back to the rows they came from, so that a
compaction can name a range of rows.
-/

namespace Peen

open List Nat

/-! ## Messages of a prompt -/

namespace Elelem

inductive Role where
  | system
  | user
  | assistant
  | tool
  deriving DecidableEq

def Role.text : Role → String
  | .system => "system"
  | .user => "user"
  | .assistant => "assistant"
  | .tool => "tool"

inductive MessageOrigin where
  | unknown
  | seed
  | turn
  | injection
  deriving DecidableEq

inductive Part where
  | text (text : String)
  | image (data : List UInt8) (mediaType : String)
  deriving DecidableEq

structure Message where
  role : Role
  content : List Part
  toolCalls : List ToolCall
  toolCallID : String
  toolResultIsError : Bool
  reasoning : String
  providerReasoning : Option String
  origin : MessageOrigin
  deriving DecidableEq

end Elelem

def elelemRole : MessageRole → Except Err Elelem.Role
  | .system => .ok .system
  | .user => .ok .user
  | .assistant => .ok .assistant
  | .tool => .ok .tool
  | .unknown text => .error ⟨.invalidState, "unknown message role \"" ++ text ++ "\""⟩

theorem elelemRole_eq_tool (h : elelemRole role = .ok .tool) : role = .tool := by
  cases role with
  | tool => rfl
  | system | user | assistant | unknown _ => nomatch h

/-! ## Units and plans -/

/-- A row with the tool messages that belong to it. -/
structure ReconstructionUnit where
  fromMessageID : UUID
  toMessageID : UUID
  fromSequence : Int
  toSequence : Int
  turnID : UUID
  messageCount : Nat
  roles : List Elelem.Role
  deriving DecidableEq

/-- The leading messages, the summary if there is one, and the units behind it. -/
structure ReconstructionPlan where
  leadCount : Nat
  hasSummary : Bool
  units : List ReconstructionUnit
  deriving DecidableEq

def ReconstructionUnit.extend (unit : ReconstructionUnit) (message : Message)
    (role : Elelem.Role) : ReconstructionUnit :=
  { unit with
    toMessageID := message.id
    toSequence := message.sequence
    messageCount := unit.messageCount + 1
    roles := unit.roles ++ [role] }

def extendLastUnit (message : Message) (role : Elelem.Role) :
    List ReconstructionUnit → List ReconstructionUnit
  | [] => []
  | [unit] => [unit.extend message role]
  | unit :: next :: units => unit :: extendLastUnit message role (next :: units)

def newUnit (message : Message) (role : Elelem.Role) : ReconstructionUnit where
  fromMessageID := message.id
  toMessageID := message.id
  fromSequence := message.sequence
  toSequence := message.sequence
  turnID := message.turnID
  messageCount := 1
  roles := [role]

/-- One round of the loop of `buildReconstructionPlan`. -/
def addRow (units : List ReconstructionUnit) (message : Message) :
    Except Err (List ReconstructionUnit) :=
  match elelemRole message.role with
  | .error e => .error e
  | .ok role =>
    if role = .tool ∧ units ≠ [] then .ok (extendLastUnit message role units)
    else .ok (units ++ [newUnit message role])

/-- A tool message joins the unit before it; every other row starts one. -/
def buildReconstructionPlan (leadCount : Nat) (hasSummary : Bool) (messages : List Message) :
    Except Err ReconstructionPlan :=
  match messages.foldlM addRow [] with
  | .error e => .error e
  | .ok units => .ok ⟨leadCount, hasSummary, units⟩

/-- `verifyUnitRoles`, from the message at `index` on. -/
def verifyUnitRoles (messages : List Elelem.Message) (index : Nat) :
    List Elelem.Role → Except Err Unit
  | [] => .ok ()
  | role :: roles =>
    match messages[index]? with
    | none => .error ⟨.panicked, "index out of range"⟩
    | some message =>
      if message.role = role then verifyUnitRoles messages (index + 1) roles
      else .error ⟨.compactionPlanMismatch, "message " ++ toString index ++ " is \"" ++
        message.role.text ++ "\", the plan expects \"" ++ role.text ++ "\""⟩

/-- The loop of `verify` over the units, the next of which starts at `index`. -/
def verifyUnits (messages : List Elelem.Message) (index : Nat) :
    List ReconstructionUnit → Except Err Unit
  | [] => .ok ()
  | unit :: units =>
    if index + unit.messageCount > messages.length then
      .error ⟨.compactionPlanMismatch, "plan needs " ++ toString (index + unit.messageCount) ++
        " messages, transcript has " ++ toString messages.length⟩
    else
      match verifyUnitRoles messages index unit.roles with
      | .error e => .error e
      | .ok () => verifyUnits messages (index + unit.messageCount) units

def messageCount (units : List ReconstructionUnit) : Nat :=
  (units.map ReconstructionUnit.messageCount).sum

/-- The loop of `coverableUnits`, over the units from the newest back. -/
def dropTurn (turnID : UUID) : List ReconstructionUnit → Nat
  | [] => 0
  | unit :: units => if unit.turnID = turnID then dropTurn turnID units else units.length + 1

namespace ReconstructionPlan

section
variable (p : ReconstructionPlan)

/-- The roles the plan recorded are those of the messages. -/
def verify (messages : List Elelem.Message) : Except Err Unit :=
  if p.hasSummary = true ∧ p.leadCount = 0 then
    .error ⟨.compactionPlanMismatch, "summary recorded with no room before the first unit"⟩
  else verifyUnits messages p.leadCount p.units

def summaryStart : Nat :=
  if p.hasSummary then p.leadCount - 1 else p.leadCount

def messageCount (units : Nat) : Nat := Peen.messageCount (p.units.take units)

/-- `coverableUnits`: the units before those of the newest turn. -/
def coverableUnits : Nat :=
  match p.units.reverse with
  | [] => 0
  | newest :: units => dropTurn newest.turnID (newest :: units)

/-- The plan behind a prefix of its units that a summary replaced. -/
def advance (units : Nat) : ReconstructionPlan where
  leadCount := p.summaryStart + 1
  hasSummary := true
  units := p.units.drop units

end

end ReconstructionPlan

section
variable (p : ReconstructionPlan) (messages : List Elelem.Message) (index : Nat)

theorem summaryStart_le : p.summaryStart ≤ p.leadCount := by
  rw [ReconstructionPlan.summaryStart]
  split
  · exact sub_le _ _
  · exact le_refl _

/-! ## What `verify` accepts -/

/-- Messages that start with those of the units: each unit has its messages, under its roles. -/
def Fits : List Elelem.Message → List ReconstructionUnit → Prop
  | _, [] => True
  | messages, unit :: units =>
    unit.messageCount ≤ messages.length ∧ unit.roles <+: messages.map Elelem.Message.role ∧
      Fits (messages.drop unit.messageCount) units

theorem verifyUnitRoles_ok_iff (roles : List Elelem.Role) : verifyUnitRoles messages index roles =
    .ok () ↔ roles <+: (messages.drop index).map Elelem.Message.role := by
  induction roles generalizing index with
  | nil => simp [verifyUnitRoles]
  | cons role roles ih =>
    rw [verifyUnitRoles]
    cases hget : messages[index]? with
    | none =>
      have hdrop : messages.drop index = [] :=
        drop_eq_nil_iff.mpr (getElem?_eq_none_iff.mp hget)
      simp [hdrop]
    | some message =>
      obtain ⟨hlt, hmsg⟩ := List.getElem?_eq_some_iff.mp hget
      have hdrop : messages.drop index = message :: messages.drop (index + 1) := by
        rw [drop_eq_getElem_cons hlt, hmsg]
      rw [hdrop, map_cons, cons_prefix_cons]
      dsimp only
      split
      next hrole =>
        rw [ih]
        exact ⟨fun h => ⟨hrole.symm, h⟩, fun h => h.2⟩
      next hrole =>
        exact ⟨nofun, fun h => absurd h.1.symm hrole⟩

theorem verifyUnits_ok_iff (units : List ReconstructionUnit) : verifyUnits messages index units =
    .ok () ↔ (units = [] ∨ index ≤ messages.length) ∧ Fits (messages.drop index) units := by
  induction units generalizing index with
  | nil => simp [verifyUnits, Fits]
  | cons unit units ih =>
    rw [verifyUnits, Fits]
    split
    next hlong =>
      refine ⟨nofun, fun h => ?_⟩
      obtain ⟨hindex, hct, -⟩ := h
      rw [length_drop] at hct
      have := hindex.resolve_left (by simp)
      omega
    next hlong =>
      have hct : unit.messageCount ≤ (messages.drop index).length := by
        rw [length_drop]
        omega
      have hindex : index ≤ messages.length := by omega
      cases hro : verifyUnitRoles messages index unit.roles with
      | error e =>
        refine ⟨nofun, fun h => ?_⟩
        rw [(verifyUnitRoles_ok_iff _ _ _).mpr h.2.2.1] at hro
        exact nomatch hro
      | ok _ =>
        have hro := (verifyUnitRoles_ok_iff messages index unit.roles).mp hro
        rw [ih, drop_drop]
        refine ⟨fun h => ⟨.inr hindex, hct, hro, h.2⟩, fun h => ⟨.inr (by omega), h.2.2.2⟩⟩

/-- **`verify` accepts the transcripts that fit the plan's units behind the lead.** -/
theorem ReconstructionPlan.verify_ok_iff : p.verify messages = .ok () ↔
    (p.hasSummary = true → 0 < p.leadCount) ∧ (p.units = [] ∨ p.leadCount ≤ messages.length) ∧
    Fits (messages.drop p.leadCount) p.units := by
  rw [verify]
  split
  next h =>
    refine ⟨nofun, fun hver => ?_⟩
    have := hver.1 h.1
    omega
  next h =>
    rw [verifyUnits_ok_iff]
    refine ⟨fun hver => ⟨fun hs => ?_, hver⟩, fun hver => hver.2⟩
    exact Nat.pos_of_ne_zero fun h0 => h ⟨hs, h0⟩

end

variable {messages : List Elelem.Message}

theorem Fits.drop (h : Fits messages units) (n : Nat) :
    Fits (messages.drop (messageCount (units.take n))) (units.drop n) := by
  induction n generalizing messages units with
  | zero => simpa [messageCount] using h
  | succ n ih =>
    cases units with
    | nil => trivial
    | cons unit units =>
      have := ih h.2.2
      simpa [messageCount] using this

theorem Fits.length (h : Fits messages units) : messageCount units ≤ messages.length := by
  induction units generalizing messages with
  | nil => exact zero_le _
  | cons unit units ih =>
    have htail := ih h.2.2
    have hhead := h.1
    rw [length_drop] at htail
    simp only [messageCount, map_cons, sum_cons] at htail ⊢
    omega

theorem Fits.append (h : Fits messages units) (after : List Elelem.Message) :
    Fits (messages ++ after) units := by
  induction units generalizing messages with
  | nil => trivial
  | cons unit units ih =>
    obtain ⟨hct, hro, hrest⟩ := h
    refine ⟨?_, ?_, ?_⟩
    · rw [length_append]
      omega
    · rw [map_append]
      exact hro.trans (prefix_append _ _)
    · rw [drop_append_of_le_length hct]
      exact ih hrest

/-! ## Prefixes of units -/

section
variable (units : List ReconstructionUnit) (block : Message × List Message)

theorem messageCount_take_add (m n : Nat) : messageCount (units.take (m + n)) =
    messageCount (units.take m) + messageCount ((units.drop m).take n) := by
  rw [take_add, messageCount, map_append, sum_append_nat]
  rfl

theorem messageCount_take_succ {units : List ReconstructionUnit} {n : Nat}
    {unit : ReconstructionUnit} (h : units[n]? = some unit) :
    messageCount (units.take (n + 1)) = messageCount (units.take n) + unit.messageCount := by
  have hdrop : (units.drop n).take 1 = [unit] := by
    obtain ⟨hlt, rfl⟩ := List.getElem?_eq_some_iff.mp h
    rw [drop_eq_getElem_cons hlt]
    rfl
  rw [messageCount_take_add, hdrop]
  simp [messageCount]

theorem messageCount_take_mono {m n : Nat} (h : m ≤ n) :
    messageCount (units.take m) ≤ messageCount (units.take n) := by
  obtain ⟨k, rfl⟩ := Nat.exists_eq_add_of_le h
  rw [messageCount_take_add]
  exact Nat.le_add_right _ _

theorem messageCount_take_le (n : Nat) : messageCount (units.take n) ≤ messageCount units := by
  have h := messageCount_take_mono units (le_max_left n units.length)
  rwa [take_of_length_le (le_max_right n units.length)] at h

theorem dropTurn_le (turnID : UUID) (units : List ReconstructionUnit) :
    dropTurn turnID units ≤ units.length := by
  induction units with
  | nil => exact le_refl _
  | cons unit units ih =>
    rw [dropTurn]
    split
    · exact le_succ_of_le ih
    · exact le_refl _

/-- **The coverable units leave out at least the newest one.** -/
theorem ReconstructionPlan.coverableUnits_lt (p : ReconstructionPlan) (h : 0 < p.coverableUnits) :
    p.coverableUnits < p.units.length := by
  rw [coverableUnits] at h ⊢
  rw [← length_reverse]
  generalize p.units.reverse = units at h ⊢
  cases units with
  | nil => exact absurd h (lt_irrefl 0)
  | cons =>
    dsimp only
    rw [dropTurn, if_pos rfl]
    exact lt_succ_of_le (dropTurn_le _ _)

/-! ## What a plan is built of -/

theorem exists_of_forall₂ {α β : Type} {R : α → β → Prop} {as : List α} {bs : List β}
    (h : Forall₂ R as bs) {b : β} (hb : b ∈ bs) : ∃ a ∈ as, R a b := by
  induction h with
  | nil => nomatch hb
  | @cons a b' as bs hab _ ih =>
    rcases mem_cons.mp hb with rfl | hb
    · exact ⟨a, mem_cons_self, hab⟩
    · obtain ⟨a, ha, hab⟩ := ih hb
      exact ⟨a, mem_cons_of_mem _ ha, hab⟩

/-- The unit describes this row and the tool rows behind it. -/
structure ReconstructionUnit.Holds (unit : ReconstructionUnit) (block : Message × List Message) :
    Prop where
  tools : ∀ t ∈ block.2, t.role = .tool
  unit_eq : ∃ role, elelemRole block.1.role = .ok role ∧ unit = {
    fromMessageID := block.1.id
    toMessageID := (block.2.getLastD block.1).id
    fromSequence := block.1.sequence
    toSequence := (block.2.getLastD block.1).sequence
    turnID := block.1.turnID
    messageCount := block.2.length + 1
    roles := role :: block.2.map fun _ => .tool }

def blockRows : List Message := block.1 :: block.2

theorem extendLastUnit_append (message : Message) (role : Elelem.Role)
    (units : List ReconstructionUnit) (unit : ReconstructionUnit) :
    extendLastUnit message role (units ++ [unit]) = units ++ [unit.extend message role] := by
  induction units with
  | nil => rfl
  | cons first units ih =>
    cases units with
    | nil => rfl
    | cons next units => simpa only [cons_append, extendLastUnit, cons.injEq, true_and]

theorem addRow_tools (head : Message) (before results : List Message)
    (hbef : ∀ t ∈ before ++ results, t.role = .tool) (unit : ReconstructionUnit)
    (hunit : unit.Holds (head, before)) : ∃ unit', unit'.Holds (head, before ++ results) ∧
    results.foldlM addRow (units ++ [unit]) = .ok (units ++ [unit']) := by
  induction results generalizing before unit with
  | nil => exact ⟨unit, by simpa using hunit, rfl⟩
  | cons t results ih =>
    have htool : t.role = .tool := hbef t (by simp)
    have hadd : addRow (units ++ [unit]) t = .ok (units ++ [unit.extend t .tool]) := by
      rw [addRow, htool]
      simp [elelemRole, extendLastUnit_append]
    have hextend : (unit.extend t .tool).Holds (head, before ++ [t]) := by
      obtain ⟨htl, role', hrole', rfl⟩ := hunit
      refine ⟨?_, role', hrole', by simp [ReconstructionUnit.extend]⟩
      intro x hx
      rcases mem_append.mp hx with hx | hx
      · exact htl x hx
      · rw [mem_singleton.mp hx]
        exact htool
    have hspl : before ++ t :: results = before ++ [t] ++ results := by simp
    obtain ⟨unit', hholds, hfold⟩ := ih (before ++ [t]) (by rwa [← hspl]) _ hextend
    refine ⟨unit', by rwa [hspl], ?_⟩
    rw [foldlM_cons, hadd]
    exact hfold

theorem addRow_block (role : Elelem.Role) (hrole : elelemRole block.1.role = .ok role)
    (hsta : role = .tool → units = []) (htl : ∀ t ∈ block.2, t.role = .tool) : ∃ unit,
    ReconstructionUnit.Holds unit block ∧ (blockRows block).foldlM addRow units =
    .ok (units ++ [unit]) := by
  have hadd : addRow units block.1 = .ok (units ++ [newUnit block.1 role]) := by
    rw [addRow, hrole]
    dsimp only
    rw [if_neg]
    exact fun h => h.2 (hsta h.1)
  have hnew : (newUnit block.1 role).Holds (block.1, []) :=
    ⟨nofun, role, hrole, rfl⟩
  obtain ⟨unit, hholds, hfold⟩ := addRow_tools units block.1 [] block.2 htl _ hnew
  refine ⟨unit, hholds, ?_⟩
  rw [blockRows, foldlM_cons, hadd]
  exact hfold

theorem addRow_blocks (blocks : List (Message × List Message))
    (hro : ∀ b ∈ blocks, ∃ role, elelemRole b.1.role = .ok role)
    (hheads : ∀ b ∈ blocks, b.1.role ≠ .tool) (htl : ∀ b ∈ blocks, ∀ t ∈ b.2, t.role = .tool) :
    ∃ new, Forall₂ ReconstructionUnit.Holds new blocks ∧
    (blocks.flatMap blockRows).foldlM addRow units = .ok (units ++ new) := by
  induction blocks generalizing units with
  | nil => exact ⟨[], .nil, by rw [append_nil]; rfl⟩
  | cons b blocks ih =>
    obtain ⟨role, hrole⟩ := hro b mem_cons_self
    have hsta : role = .tool → units = [] := by
      intro h
      rw [h] at hrole
      exact absurd (elelemRole_eq_tool hrole) (hheads b mem_cons_self)
    obtain ⟨unit, hholds, hfold⟩ :=
      addRow_block units b role hrole hsta (htl b mem_cons_self)
    obtain ⟨new, hnew, hrest⟩ := ih (units ++ [unit])
      (fun b hb => hro b (mem_cons_of_mem _ hb))
      (fun b hb => hheads b (mem_cons_of_mem _ hb))
      (fun b hb => htl b (mem_cons_of_mem _ hb))
    refine ⟨unit :: new, .cons hholds hnew, ?_⟩
    rw [flatMap_cons, foldlM_append, hfold]
    refine hrest.trans ?_
    rw [append_assoc]
    rfl

end

theorem foldlM_addRow_roles {rows : List Message} (h : rows.foldlM addRow units = .ok units') :
    ∀ m ∈ rows, ∃ role, elelemRole m.role = .ok role := by
  induction rows generalizing units with
  | nil => exact nofun
  | cons row rows ih =>
    rw [foldlM_cons, bind_eq_ok] at h
    obtain ⟨next, hrow, h⟩ := h
    intro m hm
    rcases mem_cons.mp hm with rfl | hm
    · rw [addRow] at hrow
      split at hrow
      · cases hrow
      · exact ⟨_, ‹_›⟩
    · exact ih h m hm

theorem exists_blocks (rows : List Message) :
    ∃ blocks : List (Message × List Message), blocks.flatMap blockRows = rows ∧
      (∀ b ∈ blocks, ∀ t ∈ b.2, t.role = .tool) ∧ ∀ b ∈ blocks.tail, b.1.role ≠ .tool := by
  induction rows with
  | nil => exact ⟨[], rfl, nofun, nofun⟩
  | cons row rows ih =>
    obtain ⟨blocks, rfl, htl, hheads⟩ := ih
    have alone : (∀ b ∈ blocks, b.1.role ≠ .tool) →
        ∃ blocks' : List (Message × List Message),
          blocks'.flatMap blockRows = row :: blocks.flatMap blockRows ∧
          (∀ b ∈ blocks', ∀ t ∈ b.2, t.role = .tool) ∧ ∀ b ∈ blocks'.tail, b.1.role ≠ .tool := by
      intro hall
      refine ⟨(row, []) :: blocks, rfl, fun b hb => ?_, hall⟩
      rcases mem_cons.mp hb with rfl | hb
      · exact nofun
      · exact htl b hb
    cases blocks with
    | nil => exact alone nofun
    | cons first blocks =>
      by_cases hfst : first.1.role = .tool
      · refine ⟨(row, blockRows first) :: blocks, rfl, fun b hb => ?_, hheads⟩
        rcases mem_cons.mp hb with rfl | hb
        · intro t ht
          rcases mem_cons.mp ht with rfl | ht
          · exact hfst
          · exact htl first mem_cons_self t ht
        · exact htl b (mem_cons_of_mem _ hb)
      · refine alone fun b hb => ?_
        rcases mem_cons.mp hb with rfl | hb
        · exact hfst
        · exact hheads b hb

/-- **A plan's units hold the rows it was built from, block by block.** -/
theorem buildReconstructionPlan_ok {leadCount : Nat}
    (h : buildReconstructionPlan leadCount hasSummary rows = .ok plan) :
    ∃ blocks : List (Message × List Message), blocks.flatMap blockRows = rows ∧
      Forall₂ ReconstructionUnit.Holds plan.units blocks := by
  rw [buildReconstructionPlan] at h
  split at h
  · cases h
  next units hfold =>
    cases h
    have hro := foldlM_addRow_roles hfold
    obtain ⟨blocks, rfl, htl, hheads⟩ := exists_blocks rows
    refine ⟨blocks, rfl, ?_⟩
    cases blocks with
    | nil =>
      cases hfold
      exact .nil
    | cons first blocks =>
      have hblockRoles : ∀ b ∈ first :: blocks, ∃ role, elelemRole b.1.role = .ok role :=
        fun b hb => hro b.1 (mem_flatMap.mpr ⟨b, hb, mem_cons_self⟩)
      obtain ⟨role, hrole⟩ := hblockRoles first mem_cons_self
      obtain ⟨unit, hunit, hfst⟩ := addRow_block [] first role hrole (fun _ => rfl)
        (htl first mem_cons_self)
      obtain ⟨new, hnew, hrest⟩ := addRow_blocks [unit] blocks
        (fun b hb => hblockRoles b (mem_cons_of_mem _ hb)) hheads
        (fun b hb => htl b (mem_cons_of_mem _ hb))
      rw [flatMap_cons, foldlM_append, hfst] at hfold
      cases hrest.symm.trans hfold
      exact .cons hunit hnew

/-- Units in the order of their rows: the ranges of their sequences ascend. -/
def Ascending (units : List ReconstructionUnit) : Prop :=
  (∀ u ∈ units, u.fromSequence ≤ u.toSequence) ∧
    units.Pairwise fun u v => u.toSequence < v.fromSequence

theorem Ascending.lt (h : Ascending units) {i j : Nat} (hij : i < j) (hu : units[i]? = some u)
    (hv : units[j]? = some v) : u.toSequence < v.fromSequence := by
  obtain ⟨hi, rfl⟩ := List.getElem?_eq_some_iff.mp hu
  obtain ⟨hj, rfl⟩ := List.getElem?_eq_some_iff.mp hv
  exact pairwise_iff_getElem.mp h.2 i j hi hj hij

theorem Ascending.from_le_to (h : Ascending units) {i j : Nat} (hij : i ≤ j)
    (hu : units[i]? = some u) (hv : units[j]? = some v) : u.fromSequence ≤ v.toSequence := by
  have hu' := h.1 u (mem_of_getElem? hu)
  rcases lt_or_eq_of_le hij with hij | rfl
  · have := h.lt hij hu hv
    have := h.1 v (mem_of_getElem? hv)
    omega
  · cases hu.symm.trans hv
    exact hu'

/-- Messages converted row by row, with the roles of their rows. -/
def Converted (message : Message) (converted : Elelem.Message) : Prop :=
  elelemRole message.role = .ok converted.role

theorem converted_tools (h : Forall₂ Converted results messages)
    (htl : ∀ t ∈ results, t.role = .tool) :
    messages.map Elelem.Message.role = results.map fun _ => .tool := by
  induction h with
  | nil => rfl
  | @cons t message results messages ht _ ih =>
    have hrole : message.role = .tool := by
      rw [Converted, htl t mem_cons_self] at ht
      exact (Except.ok.inj ht).symm
    rw [map_cons, map_cons, hrole, ih fun t ht => htl t (mem_cons_of_mem _ ht)]

theorem ReconstructionUnit.Holds.roles {unit : ReconstructionUnit} (h : unit.Holds block)
    (hmsgs : Forall₂ Converted (blockRows block) messages) :
    messages.map Elelem.Message.role = unit.roles ∧ messages.length = unit.messageCount := by
  obtain ⟨htl, role, hrole, rfl⟩ := h
  cases hmsgs with
  | @cons _ message _ messages hhead hresults =>
    have hheadRole : message.role = role := Except.ok.inj (hhead.symm.trans hrole)
    rw [map_cons, hheadRole, converted_tools hresults htl]
    exact ⟨rfl, by rw [length_cons, hresults.length_eq]⟩

/-- **Messages converted from the rows of a plan fit its units**, whatever follows them. -/
theorem fits_of_holds (h : Forall₂ ReconstructionUnit.Holds units blocks)
    (hmsgs : Forall₂ Converted (blocks.flatMap blockRows) messages)
    (after : List Elelem.Message) : Fits (messages ++ after) units := by
  induction h generalizing messages with
  | nil => trivial
  | @cons unit block units blocks hunit _ ih =>
    rw [flatMap_cons] at hmsgs
    have hhere := forall₂_take (blockRows block).length hmsgs
    have hrest := forall₂_drop (blockRows block).length hmsgs
    rw [take_left] at hhere
    rw [drop_left] at hrest
    obtain ⟨hro, hlen⟩ := hunit.roles hhere
    rw [← take_append_drop (blockRows block).length messages, append_assoc]
    refine ⟨?_, ?_, ?_⟩
    · rw [length_append, hlen]
      exact le_add_right _ _
    · rw [map_append, hro]
      exact prefix_append _ _
    · rw [← hlen, drop_left]
      exact ih hrest

end Peen
