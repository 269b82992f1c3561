import Mathlib.Data.List.Infix
import Peen.Base
import Peen.Lib.Splice

/-!
# Handler messages and how the chat shows them

`renderEventHandler` writes a handler's type and agent as escaped elements and its instructions as
they are.
-/

namespace Peen.HandlerText

open List Splice

/-- A text of the sources, which proofs do not take apart. -/
@[irreducible] def text (s : String) : Text := s.toList

/-- The fields of `harness.EventHandler` that are rendered. -/
structure EventHandler where
  type : Text
  agent : Text
  instructions : Text

def escapeElement (value : Text) : Text :=
  value.flatMap fun c =>
    if c = '&' then "&amp;".toList else if c = '<' then "&lt;".toList
    else if c = '>' then "&gt;".toList else [c]

/-- The sentence behind the instructions, where an agent is named. -/
def closing (agent : Text) : Text :=
  if agent = [] then []
  else text "\n\nHandle this as the " ++ agent ++ text " agent would."

/-- `eventHandlerTemplateText`. -/
def renderEventHandler (handler : EventHandler) : Text :=
  text "<handler>\n<event>" ++ escapeElement handler.type ++ text "</event>" ++
  (if handler.agent = [] then []
    else text "\n<agent>" ++ escapeElement handler.agent ++ text "</agent>") ++
  text "\n\n" ++ trimSpace handler.instructions ++ closing handler.agent ++
  text "\n</handler>"

def indexOf (part : Text) : Text → Option Nat
  | [] => if part = [] then some 0 else none
  | c :: rest => if part.isPrefixOf (c :: rest) then some 0 else (indexOf part rest).map (· + 1)

/-- `replaceAll` of a text that is not empty, with the characters of the last occurrence still to
skip. -/
def replaceAll (part new : Text) : Nat → Text → Text
  | _, [] => []
  | skip + 1, _ :: rest => replaceAll part new skip rest
  | 0, c :: rest =>
    if part.isPrefixOf (c :: rest) then new ++ replaceAll part new (part.length - 1) rest
    else c :: replaceAll part new 0 rest

def unescapeElement (value : Text) : Text :=
  replaceAll "&amp;".toList ['&'] 0
    (replaceAll "&gt;".toList ['>'] 0 (replaceAll "&lt;".toList ['<'] 0 value))

/-! The constants `EVENT_HANDLER_…` of the chat. -/

def openTag : Text := text "<handler>\n<event>"
def typeClose : Text := text "</event>\n"
def agentOpen : Text := text "<agent>"
def agentClose : Text := text "</agent>\n"
def bodyGap : Text := text "\n"
def closeTag : Text := text "\n</handler>"

/-- What is behind the agent's element, if there is one. -/
def passAgent (rest : Text) : Option Text :=
  if agentOpen.isPrefixOf rest then
    (indexOf agentClose rest).map fun agentEnd => rest.drop (agentEnd + agentClose.length)
  else some rest

/-- The chat's side: find the parts again. -/
def handlerText (content : Text) : Option Text :=
  if !openTag.isPrefixOf content || !closeTag.isSuffixOf content then none
  else
    match indexOf typeClose content with
    | none => none
    | some typeEnd =>
      let type := slice content openTag.length typeEnd
      match passAgent (content.drop (typeEnd + typeClose.length)) with
      | none => none
      | some rest =>
        if !bodyGap.isPrefixOf rest then none
        else
          let instructions := slice rest bodyGap.length (rest.length - closeTag.length)
          some (text "Event handler for " ++ unescapeElement type ++ text "\n\n" ++ instructions)

theorem replaceAll_flatMap (h : ∀ c rest, replaceAll part new 0 (f c ++ rest) =
    g c ++ replaceAll part new 0 rest) (s : Text) :
    replaceAll part new 0 (s.flatMap f) = s.flatMap g := by
  induction s with
  | nil => rfl
  | cons c s ih => rw [flatMap_cons, h, ih, flatMap_cons]

theorem replaceAll_plain (hc : c ≠ '&') : replaceAll ('&' :: part) new 0 ([c] ++ rest) =
    [c] ++ replaceAll ('&' :: part) new 0 rest := by
  rw [singleton_append, replaceAll, if_neg (by simp [isPrefixOf, hc.symm]), singleton_append]

theorem unescapeElement_escapeElement (value : Text) :
    unescapeElement (escapeElement value) = value := by
  have hlt : replaceAll "&lt;".toList ['<'] 0 (escapeElement value) = value.flatMap fun c =>
      if c = '&' then "&amp;".toList else if c = '>' then "&gt;".toList else [c] := by
    refine replaceAll_flatMap (fun c rest => ?_) value
    split
    · rfl
    next hamp =>
      split
      next hc => subst hc; rfl
      split
      · rfl
      · exact replaceAll_plain hamp
  have hgt : replaceAll "&gt;".toList ['>'] 0 (replaceAll "&lt;".toList ['<'] 0
      (escapeElement value)) = value.flatMap fun c => if c = '&' then "&amp;".toList else [c] := by
    rw [hlt]
    refine replaceAll_flatMap (fun c rest => ?_) value
    split
    · rfl
    next hamp =>
      split
      next hc => subst hc; rfl
      · exact replaceAll_plain hamp
  rw [unescapeElement, hgt, replaceAll_flatMap (g := fun c => [c]), flatMap_singleton']
  intro c rest
  split
  next hc => subst hc; rfl
  next hamp => exact replaceAll_plain hamp

theorem not_mem_escapeElement (value : Text) : '<' ∉ escapeElement value := by
  intro h
  obtain ⟨c, -, hc⟩ := mem_flatMap.1 h
  split at hc
  · exact absurd hc (by decide +kernel)
  split at hc
  · exact absurd hc (by decide +kernel)
  next hlt =>
    split at hc
    · exact absurd hc (by decide +kernel)
    · exact hlt (mem_singleton.1 hc).symm

/-- A part that neither occurs in a text nor begins in it is found behind it. -/
theorem indexOf_skip (h : ∀ t, t <:+ front → t ≠ [] → ¬ part <+: t ∧ ¬ t <+: part)
    (hrest : indexOf part rest = some n) :
    indexOf part (front ++ rest) = some (front.length + n) := by
  induction front with
  | nil => rwa [length_nil, Nat.zero_add]
  | cons c front ih =>
    obtain ⟨hin, hend⟩ := h (c :: front) (suffix_refl _) (cons_ne_nil _ _)
    have hno : part.isPrefixOf (c :: (front ++ rest)) = false := by
      refine Bool.eq_false_iff.2 fun hpre => ?_
      have hpre := isPrefixOf_iff_prefix.1 hpre
      rcases prefix_or_prefix_of_prefix hpre (prefix_append (c :: front) rest) with hp | hp
      · exact hin hp
      · exact hend hp
    rw [cons_append, indexOf, hno, ih fun t ht => h t (ht.trans (suffix_cons _ _)), length_cons,
      Nat.add_right_comm]
    rfl

/-- The closing tag of an element with an escaped value. -/
theorem indexOf_element (front value rest : Text) (hpart : part.head? = some '<')
    (hopen : ∀ t ∈ tails front, t ≠ [] → ¬ part <+: t ∧ ¬ t <+: part) :
    indexOf part (front ++ (escapeElement value ++ (part ++ rest))) =
      some (front.length + (escapeElement value).length) := by
  obtain ⟨part, rfl⟩ := head?_eq_some_iff.1 hpart
  refine indexOf_skip (fun t ht => hopen t ((mem_tails _ _).2 ht)) (indexOf_skip (n := 0) ?_
    (if_pos (by simp)))
  intro t ht hne
  have hno : '<' ∉ t := fun h => not_mem_escapeElement value (ht.subset h)
  refine ⟨fun hp => hno (hp.subset mem_cons_self), fun hp => ?_⟩
  obtain ⟨c, t, rfl⟩ := exists_cons_of_ne_nil hne
  exact hno ((cons_prefix_cons.1 hp).1 ▸ mem_cons_self)

/-- A message whose type is followed by `rest`. -/
theorem handlerText_rest (hend : closeTag <:+ rest)
    (hrest : passAgent rest = some (bodyGap ++ (body ++ closeTag)))
    (hcontent : content = openTag ++ (escapeElement type ++ (typeClose ++ rest))) :
    handlerText content = some (text "Event handler for " ++ type ++ text "\n\n" ++ body) := by
  have hopen : openTag.isPrefixOf content = true :=
    isPrefixOf_iff_prefix.2 (hcontent ▸ prefix_append _ _)
  have hclose : closeTag.isSuffixOf content = true := isSuffixOf_iff_suffix.2
    (hcontent ▸ hend.trans (suffix_append_of_suffix (suffix_append_of_suffix (suffix_append _ _))))
  have hindex : indexOf typeClose content = some (openTag.length + (escapeElement type).length) :=
    hcontent ▸ indexOf_element openTag type rest (by decide +kernel) (by decide +kernel)
  have hafter :
      content.drop (openTag.length + (escapeElement type).length + typeClose.length) = rest := by
    rw [hcontent, ← append_assoc, ← append_assoc, ← length_append, ← length_append, drop_left]
  have htype : slice content openTag.length (openTag.length + (escapeElement type).length) =
      escapeElement type := by
    rw [hcontent, slice, ← append_assoc, ← length_append, take_left, drop_left]
  rw [handlerText, hopen, hclose, if_neg (by simp), hindex]
  dsimp only
  rw [hafter, hrest]
  dsimp only
  rw [if_neg (by simp), htype, unescapeElement_escapeElement, slice, ← append_assoc, length_append,
    Nat.add_sub_cancel, take_left, drop_left]

/-- **A handler message reads back**, whatever its texts look like. -/
theorem handlerText_renderEventHandler (handler : EventHandler) :
    handlerText (renderEventHandler handler) = some (text "Event handler for " ++ handler.type ++
      text "\n\n" ++ (trimSpace handler.instructions ++ closing handler.agent)) := by
  obtain ⟨type, agent, instructions⟩ := handler
  generalize hshown : bodyGap ++ (trimSpace instructions ++ closing agent ++ closeTag) = shown
  have hend : closeTag <:+ shown := hshown ▸ suffix_append_of_suffix (suffix_append _ _)
  have htags : text "</event>" ++ text "\n\n" = typeClose ++ bodyGap ∧
      text "</event>" ++ text "\n<agent>" = typeClose ++ agentOpen ∧
      text "</agent>" ++ text "\n\n" = agentClose ++ bodyGap := by
    decide +kernel
  by_cases hagent : agent = []
  · have hgap : bodyGap <+: shown := hshown ▸ prefix_append _ _
    have hpass : passAgent shown = some shown := if_neg fun hp => by
      rcases prefix_or_prefix_of_prefix (by simpa using hp) hgap with h | h <;>
        exact absurd h (by decide +kernel)
    refine handlerText_rest hend (hpass.trans (congrArg some hshown.symm)) ?_
    rw [← hshown, ← append_assoc typeClose, ← htags.1, renderEventHandler, if_pos hagent]
    simp only [append_assoc, nil_append, openTag, closeTag]
  · have hindex : indexOf agentClose _ = _ :=
      indexOf_element agentOpen agent shown (by decide +kernel) (by decide +kernel)
    have hpass : passAgent (agentOpen ++ (escapeElement agent ++ (agentClose ++ shown))) =
        some shown := by
      rw [passAgent, if_pos (by simp), hindex, Option.map_some, ← append_assoc, ← append_assoc,
        ← length_append, ← length_append, drop_left]
    refine handlerText_rest (suffix_append_of_suffix (suffix_append_of_suffix
      (suffix_append_of_suffix hend))) (hpass.trans (congrArg some hshown.symm)) ?_
    rw [← hshown, ← append_assoc typeClose, ← append_assoc agentClose, ← htags.2.1, ← htags.2.2,
      renderEventHandler, if_neg hagent]
    simp only [append_assoc, openTag, closeTag]

end Peen.HandlerText
