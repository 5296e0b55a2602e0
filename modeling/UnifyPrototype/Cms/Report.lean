import UnifyPrototype.Cms.Model
import UnifyPrototype.Utils.Lines

/-!
# What a report tells

`explainSelf` writes the category, the contexts, the message and the additional information one after
the other. As long as a program gives an exception a category, contexts and additional information
of one line each, its report tells all of them, and the message up to a newline at its end.
-/

namespace UnifyPrototype.Cms

open UnifyPrototype.Utils

variable {s s' t : State} {e e' : Exception} {i j : ℕ} {m m' r r' : StdString} {l : Label}

/-! ## The parts of a report -/

/-- The message as it stands in the report: its last line ends. -/
def closed (m : StdString) : StdString :=
  if m.isEmpty then [] else m ++ if m.getLast? ≠ some '\n' then ['\n'] else []

/-- The line before the additional information. -/
def infoHeader : StdString :=
  "   Additional Info:".toList

def contextLabel (count : ℕ) : StdString :=
  "   [".toList ++ (toString count).toList ++ "] ".toList

def infoLabel (n : ℕ) : StdString :=
  "      [".toList ++ [Char.ofNat ((97 + n) % 256)] ++ "] ".toList

def messagePart (m : StdString) : StdString :=
  if m.isEmpty then [] else "Exception Message:\n".toList ++ closed m

def infoPart (additionalInfo : List StdString) : StdString :=
  if additionalInfo.isEmpty then []
  else infoHeader ++ '\n' :: listing infoLabel '\n' 0 additionalInfo.reverse

/-- The end of the first line. -/
def occurred (context : List StdString) : StdString :=
  if context.isEmpty then "' occurred.".toList else "' occurred while".toList

def contextPart (context : List StdString) : StdString :=
  occurred context ++ '\n' :: listing contextLabel '\n' 0 context.reverse

lemma contextPart_eq (context : List StdString) : contextPart context =
    if context.isEmpty then "' occurred.\n".toList
    else "' occurred while\n".toList ++ Exception.contextLines context := by
  have hlines : Exception.contextLines context = listing contextLabel '\n' 0 context.reverse := rfl
  have hnone : "' occurred.\n".toList = "' occurred.".toList ++ ['\n'] := by decide
  have hsome : "' occurred while\n".toList = "' occurred while".toList ++ ['\n'] := by decide
  rw [hlines, hnone, hsome, List.append_assoc]
  unfold contextPart occurred
  cases context with
  | nil => rfl
  | cons line context => rfl

lemma infoPart_eq (additionalInfo : List StdString) : infoPart additionalInfo =
    if additionalInfo.isEmpty then []
    else "   Additional Info:\n".toList ++ Exception.infoLines additionalInfo := by
  have hlines : Exception.infoLines additionalInfo =
      listing infoLabel '\n' 0 additionalInfo.reverse := rfl
  have hheader : "   Additional Info:\n".toList = infoHeader ++ ['\n'] := by decide
  rw [hlines, hheader, List.append_assoc]
  rfl

lemma messagePart_eq (m : StdString) : messagePart m =
    if m.isEmpty then []
    else "Exception Message:\n".toList ++ m ++ if m.getLast? ≠ some '\n' then ['\n'] else [] := by
  unfold messagePart closed
  cases hm : m.isEmpty <;> simp

/-- The report in its four parts. -/
lemma explainSelf_eq (e : Exception) :
    e.explainSelf = "An exception of category '".toList ++
      (e.category ++ (contextPart e.context ++ (messagePart e.message ++
        infoPart e.additionalInfo))) := by
  rw [contextPart_eq, infoPart_eq, messagePart_eq, ← List.append_assoc, ← List.append_assoc,
    ← List.append_assoc]
  rfl

/-! ## Reading it back -/

/-- The message ends with a newline once it was added. -/
lemma closed_closed (m : StdString) : Closed '\n' (closed m) := by
  unfold closed
  split
  · exact .inl rfl
  · split
    · exact .inr ⟨m, rfl⟩
    · rename_i hlast
      have hlast : m.getLast? = some '\n' := not_not.mp hlast
      exact .inr ⟨m.dropLast, by rw [List.append_nil, List.dropLast_append_getLast? _ hlast]⟩

lemma closed_ne_nil (hm : m ≠ []) : closed m ≠ [] := by
  unfold closed
  rw [if_neg (by simpa using hm)]
  simp [hm]

lemma contextLabel_prefix (count : ℕ) : "   [".toList <+: contextLabel count := by
  unfold contextLabel
  rw [List.append_assoc]
  exact List.prefix_append ..

lemma infoLabel_prefix (n : ℕ) : "      [".toList <+: infoLabel n := by
  unfold infoLabel
  rw [List.append_assoc]
  exact List.prefix_append ..

/-- The first line tells the category, and the lines of the context follow it. -/
lemma contextPart_append_inj {c c' : List StdString} {category category' : StdString}
    (hcategory : '\n' ∉ category) (hcategory' : '\n' ∉ category')
    (hc : ∀ line ∈ c, '\n' ∉ line) (hc' : ∀ line ∈ c', '\n' ∉ line)
    (hr : ¬ "   [".toList <+: r) (hr' : ¬ "   [".toList <+: r')
    (heq : category ++ (contextPart c ++ r) = category' ++ (contextPart c' ++ r')) :
    category = category' ∧ c = c' ∧ r = r' := by
  have hline : ∀ {category : StdString} (c : List StdString), '\n' ∉ category →
      '\n' ∉ category ++ occurred c := fun c hcategory hmem => by
    have hoccurred : '\n' ∉ occurred c := by
      unfold occurred
      cases c.isEmpty <;> decide
    exact (List.mem_append.mp hmem).elim hcategory hoccurred
  unfold contextPart at heq
  simp only [List.append_assoc, List.cons_append] at heq
  rw [← List.append_assoc, ← List.append_assoc category'] at heq
  have hfirst := line_append_inj (hline c hcategory) (hline c' hcategory') heq
  have hlines := listing_append_inj contextLabel_prefix hr hr'
    (fun line hmem => hc line (List.mem_reverse.mp hmem))
    (fun line hmem => hc' line (List.mem_reverse.mp hmem)) hfirst.2
  have hcontext : c = c' := List.reverse_injective hlines.1
  rw [hcontext] at hfirst
  exact ⟨List.append_cancel_right hfirst.1, hcontext, hlines.2⟩

/-- What follows the context is no line of the context. -/
lemma not_context_line (m : StdString) (additionalInfo : List StdString) :
    ¬ "   [".toList <+: messagePart m ++ infoPart additionalInfo := by
  unfold messagePart infoPart infoHeader
  intro hprefix
  cases hm : m.isEmpty <;> cases hi : additionalInfo.isEmpty <;> simp [hm, hi] at hprefix

/-- The additional information begins with its header. -/
lemma infoPart_header (additionalInfo : List StdString) :
    infoPart additionalInfo = [] ∨ infoHeader ++ ['\n'] <+: infoPart additionalInfo := by
  unfold infoPart
  split
  · exact .inl rfl
  · right
    rw [List.append_cons]
    exact List.prefix_append ..

/-- A message is not taken for additional information. -/
lemma message_ne_info (m : StdString) (additionalInfo : List StdString) :
    "Exception Message:\n".toList ++ m ≠ infoPart additionalInfo := by
  intro heq
  unfold infoPart infoHeader at heq
  cases hi : additionalInfo.isEmpty <;> simp [hi] at heq

/-- The message ends at the header line of the additional information. -/
lemma messagePart_append_inj {i i' : List StdString} (hm : ¬ HasLine '\n' infoHeader (closed m))
    (hm' : ¬ HasLine '\n' infoHeader (closed m'))
    (heq : messagePart m ++ infoPart i = messagePart m' ++ infoPart i') :
    closed m = closed m' ∧ infoPart i = infoPart i' := by
  have hheader : '\n' ∉ infoHeader := by decide
  have hsome : ∀ {m : StdString}, m ≠ [] →
      messagePart m = "Exception Message:\n".toList ++ closed m := fun {m} hne => by
    unfold messagePart
    rw [if_neg (by simpa using hne)]
  by_cases hempty : m = []
  · by_cases hempty' : m' = []
    · subst hempty hempty'
      exact ⟨rfl, heq⟩
    · subst hempty
      rw [hsome hempty', List.append_assoc] at heq
      exact absurd heq.symm (message_ne_info _ _)
  · by_cases hempty' : m' = []
    · subst hempty'
      rw [hsome hempty, List.append_assoc] at heq
      exact absurd heq (message_ne_info _ _)
    · rw [hsome hempty, hsome hempty', List.append_assoc, List.append_assoc] at heq
      exact block_append_inj hheader (closed_closed m) (closed_closed m') (closed_ne_nil hempty)
        (closed_ne_nil hempty') hm hm' (infoPart_header i) (infoPart_header i')
        (List.append_cancel_left heq)

/-- The lines of the additional information are read to the end. -/
lemma infoPart_inj {i i' : List StdString} (hi : ∀ line ∈ i, '\n' ∉ line)
    (hi' : ∀ line ∈ i', '\n' ∉ line) (heq : infoPart i = infoPart i') : i = i' := by
  unfold infoPart at heq
  cases hempty : i.isEmpty <;> cases hempty' : i'.isEmpty <;>
    simp only [hempty, hempty', if_true, Bool.false_eq_true, if_false] at heq
  case false.false =>
    have hlines := List.tail_eq_of_cons_eq (List.append_cancel_left heq)
    rw [← List.append_nil (listing _ _ _ i.reverse), ← List.append_nil (listing _ _ _ i'.reverse)]
      at hlines
    have hnone : ¬ "      [".toList <+: ([] : StdString) := by decide
    have hlists := listing_append_inj infoLabel_prefix hnone hnone
      (fun line hmem => hi line (List.mem_reverse.mp hmem))
      (fun line hmem => hi' line (List.mem_reverse.mp hmem)) hlines
    exact List.reverse_injective hlists.1
  case false.true => simp at heq
  case true.false => simp at heq
  case true.true => rw [List.isEmpty_iff.mp hempty, List.isEmpty_iff.mp hempty']

/-! ## Programs -/

/-- Everything but the message is a line or a list of lines. -/
structure Exception.OneLine (e : Exception) : Prop where
  category : '\n' ∉ e.category
  context : ∀ line ∈ e.context, '\n' ∉ line
  additionalInfo : ∀ line ∈ e.additionalInfo, '\n' ∉ line

/-- No line of the message is the one before the additional information. -/
def Exception.Apart (e : Exception) : Prop :=
  ¬ HasLine '\n' infoHeader (closed e.message)

instance (e : Exception) : Decidable e.Apart :=
  inferInstanceAs (Decidable (¬ _))

/-- The program gives one line for each category, context and additional information. -/
def Label.OneLine : Label → Prop
  | .ofCategory aCategory | .ofMessage aCategory _ | .ofAnother aCategory _ _ => '\n' ∉ aCategory
  | .addContext _ line | .addAdditionalInfo _ line => '\n' ∉ line
  | .setContext _ lines | .setAdditionalInfo _ lines => ∀ line ∈ lines, '\n' ∉ line
  | _ => True

/-- The same holds of each of the exceptions. -/
def State.OneLine (s : State) : Prop :=
  ∀ e ∈ s, e.OneLine

/-- Reports of exceptions that keep apart agree if and only if their parts do. -/
lemma explainSelf_eq_iff (he : e.OneLine) (he' : e'.OneLine) (hm : e.Apart) (hm' : e'.Apart) :
    e.explainSelf = e'.explainSelf ↔ e.category = e'.category ∧ e.context = e'.context ∧
      closed e.message = closed e'.message ∧ e.additionalInfo = e'.additionalInfo := by
  rw [explainSelf_eq, explainSelf_eq]
  constructor
  · intro heq
    have hcontext := contextPart_append_inj he.category he'.category he.context he'.context
      (not_context_line _ _) (not_context_line _ _) (List.append_cancel_left heq)
    have hmessage := messagePart_append_inj hm hm' hcontext.2.2
    have hinfo := infoPart_inj he.additionalInfo he'.additionalInfo hmessage.2
    exact ⟨hcontext.1, hcontext.2.1, hmessage.1, hinfo⟩
  · rintro ⟨hcategory, hcontext, hmessage, hinfo⟩
    have hempty : ∀ m : StdString, m.isEmpty = (closed m).isEmpty := fun m => by
      cases m <;> simp [closed]
    have hpart : messagePart e.message = messagePart e'.message := by
      unfold messagePart
      rw [hempty e.message, hempty e'.message, hmessage]
    rw [hcategory, hcontext, hpart, hinfo]

lemma State.OneLine.append (h : s.OneLine) (he : e.OneLine) : State.OneLine (s ++ [e]) := by
  intro x hx
  cases List.mem_append.mp hx with
  | inl hx => exact h x hx
  | inr hx => exact List.mem_singleton.mp hx ▸ he

lemma State.OneLine.get (h : s.OneLine) (he : s[i]? = some e) : e.OneLine :=
  h e (List.mem_of_getElem? he)

lemma State.OneLine.modify (h : s.OneLine) {f : Exception → Exception}
    (hs : s.modify i f = some s') (hf : ∀ e : Exception, e.OneLine → (f e).OneLine) : s'.OneLine := by
  obtain ⟨x, hx, rfl⟩ := Option.map_eq_some_iff.mp hs
  intro e he
  cases List.mem_or_eq_of_mem_set he with
  | inl he => exact h e he
  | inr he => exact he ▸ hf x (h.get hx)

/-- An exception that is made anew has no lines but those given. -/
lemma init_oneLine (h : e.OneLine) (message : StdString) : (e.init message).OneLine := by
  unfold Exception.init
  dsimp only
  split
  · exact ⟨h.category, h.context, h.additionalInfo⟩
  · split
    · exact ⟨h.category, h.context, h.additionalInfo⟩
    · exact ⟨h.category, h.context, h.additionalInfo⟩

/-- So has one that is made from another. -/
lemma ofAnother_oneLine (h : e.OneLine) {aCategory : StdString} (hcategory : '\n' ∉ aCategory)
    (message : StdString) : (Exception.ofAnother aCategory message e).OneLine := by
  unfold Exception.ofAnother
  split
  · exact ⟨hcategory, h.context, h.additionalInfo⟩
  · exact ⟨hcategory, h.context, h.additionalInfo⟩

/-- Each step keeps the fields to one line. -/
lemma oneLine_step (h : s.OneLine) (hl : l.OneLine) (hstep : step s l = some t) : t.OneLine := by
  have hnew : ∀ aCategory : StdString, '\n' ∉ aCategory →
      (Exception.ofCategory aCategory).OneLine := fun aCategory hcategory => ⟨hcategory, nofun, nofun⟩
  have hadd : ∀ {lines : List StdString} {line : StdString}, (∀ line ∈ lines, '\n' ∉ line) →
      '\n' ∉ line → ∀ a ∈ lines ++ [line], '\n' ∉ a := fun hlines hline a ha => by
    cases List.mem_append.mp ha with
    | inl ha => exact hlines a ha
    | inr ha => exact List.mem_singleton.mp ha ▸ hline
  cases l with
  | ofCategory aCategory =>
    obtain rfl := Option.some.inj hstep
    exact h.append (hnew aCategory hl)
  | ofMessage aCategory message =>
    obtain rfl := Option.some.inj hstep
    exact h.append (init_oneLine (hnew aCategory hl) message)
  | ofAnother aCategory message another =>
    obtain ⟨x, hx, rfl⟩ := Option.map_eq_some_iff.mp hstep
    exact h.append (ofAnother_oneLine (h.get hx) hl message)
  | copy other =>
    obtain ⟨x, hx, rfl⟩ := Option.map_eq_some_iff.mp hstep
    have hx := h.get hx
    exact h.append ⟨hx.category, hx.context, hx.additionalInfo⟩
  | insert e stuff =>
    exact h.modify hstep fun e he => ⟨he.category, he.context, he.additionalInfo⟩
  | append e text =>
    exact h.modify hstep fun e he => ⟨he.category, he.context, he.additionalInfo⟩
  | appendAnother e another =>
    obtain ⟨y, -, hstep⟩ := Option.bind_eq_some_iff.mp hstep
    exact h.modify hstep fun e he => ⟨he.category, he.context, he.additionalInfo⟩
  | addContext e line =>
    exact h.modify hstep fun e he => ⟨he.category, hadd he.context hl, he.additionalInfo⟩
  | setContext e lines =>
    exact h.modify hstep fun e he => ⟨he.category, hl, he.additionalInfo⟩
  | clearContext e =>
    exact h.modify hstep fun e he => ⟨he.category, List.forall_mem_nil _, he.additionalInfo⟩
  | addAdditionalInfo e line =>
    exact h.modify hstep fun e he => ⟨he.category, he.context, hadd he.additionalInfo hl⟩
  | setAdditionalInfo e lines =>
    exact h.modify hstep fun e he => ⟨he.category, he.context, hl⟩
  | clearAdditionalInfo e =>
    exact h.modify hstep fun e he => ⟨he.category, he.context, List.forall_mem_nil _⟩
  | clearMessage e =>
    exact h.modify hstep fun e he => ⟨he.category, he.context, he.additionalInfo⟩
  | setAlreadyPrinted e =>
    exact h.modify hstep fun e he => ⟨he.category, he.context, he.additionalInfo⟩
  | what e =>
    exact h.modify hstep fun e he => ⟨he.category, he.context, he.additionalInfo⟩
  | assign this other =>
    obtain ⟨y, hy, hstep⟩ := Option.bind_eq_some_iff.mp hstep
    have hy := h.get hy
    exact h.modify hstep fun e _ => ⟨hy.category, hy.context, hy.additionalInfo⟩
  | swap this other =>
    obtain ⟨x, hx, hstep⟩ := Option.bind_eq_some_iff.mp hstep
    obtain ⟨y, hy, rfl⟩ := Option.map_eq_some_iff.mp hstep
    have hx := h.get hx
    have hy := h.get hy
    intro e he
    split at he
    · cases List.mem_or_eq_of_mem_set he with
      | inl he => exact h e he
      | inr he => exact he ▸ ⟨hx.category, hx.context, hx.additionalInfo⟩
    · cases List.mem_or_eq_of_mem_set he with
      | inl he =>
        cases List.mem_or_eq_of_mem_set he with
        | inl he => exact h e he
        | inr he => exact he ▸ ⟨hy.category, hy.context, hy.additionalInfo⟩
      | inr he => exact he ▸ ⟨hx.category, hx.context, hx.additionalInfo⟩

/-- An exception with a message, and one with the text that the report makes of it. -/
def sameReports : State :=
  [.ofMessage ['A'] ['x'], (Exception.ofCategory ['A']).append ['x', ' ', '\n']]

end UnifyPrototype.Cms
