import ScriptTree.Proofs.Groups

/-!
# Productions keep the text

A production passes its parts in order. What fills a part comes last in the form, since only
parts that were passed before are filled, and none of them has to stand after it.
-/

namespace ScriptTree

namespace Production

/-- Parts stand in the order in which the node declares their slots, and a block is the last. -/
theorem pairwise_parts (kind : NodeKind) :
    (parts kind).Pairwise fun earlier later =>
      earlier.isBlock = false ∧ earlier.slot ≠ later.slot ∧
        Form.standsAfter kind later.slot (.slot earlier.slot) = false := by
  cases kind <;> decide

/-- A mark of a production is a single character. -/
theorem ne_doubleDot_of_mem_parts {kind : NodeKind} {part : Part} (h : part ∈ parts kind)
    {mark : Punct} (hshape : part.shape = .punct mark) : mark ≠ .doubleDot := by
  have hall : ∀ q ∈ parts kind, q.shape ≠ .punct .doubleDot := by
    cases kind <;> decide
  rintro rfl
  exact hall part h hshape

/-- A part comes after the parts that were passed before it. -/
theorem earlier_of_parts {kind : NodeKind} {passed rest : List Part} {part earlier : Part}
    (hparts : parts kind = passed ++ part :: rest) (h : earlier ∈ passed) :
    earlier.isBlock = false ∧ earlier.slot ≠ part.slot ∧
      Form.standsAfter kind part.slot (.slot earlier.slot) = false := by
  have hpairwise := pairwise_parts kind
  rw [hparts, List.pairwise_append] at hpairwise
  exact hpairwise.2.2 earlier h part List.mem_cons_self

/-- No slot is filled by two parts. -/
theorem eq_of_slot_eq {kind : NodeKind} {part other : Part} (hpart : part ∈ parts kind)
    (hother : other ∈ parts kind) (h : part.slot = other.slot) : part = other := by
  obtain ⟨before, after, hparts⟩ := List.append_of_mem hpart
  rw [hparts, List.mem_append, List.mem_cons] at hother
  rcases hother with hbefore | heq | hafter
  · exact absurd h.symm (earlier_of_parts hparts hbefore).2.1
  · exact heq.symm
  · have hpairwise := pairwise_parts kind
    rw [hparts, List.pairwise_append, List.pairwise_cons] at hpairwise
    exact absurd h (hpairwise.2.1.1 other hafter).2.1

end Production

namespace SequenceReader

/-- A block among fewer parts is a block among all of them. -/
theorem blockReserve_le_of_suffix {parts rest : List Part} (h : rest <:+ parts) :
    blockReserve rest ≤ blockReserve parts := by
  rw [blockReserve, blockReserve]
  split
  · rename_i hrest
    obtain ⟨part, hpart, hblock⟩ := List.any_eq_true.1 hrest
    exact Nat.le_of_eq (if_pos (List.any_eq_true.2 ⟨part, h.subset hpart, hblock⟩)).symm
  · exact Nat.zero_le _

/-- A production that goes on, with no state open inside it. -/
structure Going (r : SequenceReader) : Prop extends r.Sound where
  done : r.done = false
  handback : r.handback = none
  line : r.line = none
  inactive : r.active = none

theorem Rests.toGoing {r : SequenceReader} (h : r.Rests) (hdone : r.done = false) : r.Going :=
  ⟨h.toSound, hdone, (h.hands.of_open hdone).1, (h.hands.of_open hdone).2, h.inactive⟩

theorem Hosts.toGoing {r : SequenceReader} {layer : Layer} (h : r.Hosts layer) :
    ({ r with active := none } : SequenceReader).Going :=
  ⟨{ h.toSound with }, h.going, (h.hands.of_open h.going).1, (h.hands.of_open h.going).2, rfl⟩

theorem Going.rests {r : SequenceReader} (h : r.Going) : r.Rests :=
  ⟨h.toSound, h.inactive⟩

theorem Going.text_eq {r : SequenceReader} (h : r.Going) : r.text = Tree.textOfForm r.form := by
  simp [text, h.handback, h.line]

/-- A part stays filled in a form that grows. -/
theorem requirementMet_append {r : SequenceReader} {part : Part} (h : r.requirementMet part)
    (entries : List Entry) :
    ({ r with form := r.form ++ entries } : SequenceReader).requirementMet part := by
  rw [requirementMet, Option.all_eq_true] at h ⊢
  intro slot hslot
  have hfilled := Form.isFilled_iff.1 (h slot hslot)
  exact Form.isFilled_iff.2 (by simp [hfilled])

/-- Extras do not fill parts. -/
theorem Going.pushExtras {r : SequenceReader} (h : r.Going) (tokens : List Tree) :
    (r.pushExtras tokens).Going := by
  obtain ⟨passed, hparts, hsublist⟩ := h.order
  refine ⟨{
    hands := h.hands
    items := by simp [SequenceReader.pushExtras, h.items]
    order := ⟨passed, hparts, by simpa [SequenceReader.pushExtras] using hsublist⟩
    required := fun part hpart hslot => ?_
    block := fun part hpart hblock hpassed => ?_ }, h.done, h.handback, h.line, h.inactive⟩
  · refine requirementMet_append (h.required part hpart ?_) _
    simpa [SequenceReader.pushExtras] using hslot
  · exact requirementMet_append (h.block part hpart hblock hpassed) _

@[simp]
theorem text_pushExtras (r : SequenceReader) (tokens : List Tree) (h : r.Going) :
    (r.pushExtras tokens).text = r.text ++ Tree.textOfTokens tokens := by
  rw [(h.pushExtras tokens).text_eq, h.text_eq]
  simp [pushExtras]

/-- What fills a part that was not passed yet comes last. -/
theorem Going.appends {r : SequenceReader} (h : r.Going) {part : Part} {rest : List Part}
    (hrest : part :: rest <:+ r.remaining) : Form.Appends r.kind part.slot r.form := by
  obtain ⟨passed, hparts, hsublist⟩ := h.order
  obtain ⟨skipped, hskipped⟩ := hrest
  rw [← hskipped, ← List.append_assoc] at hparts
  intro entry hentry
  have hrole := Form.mem_roles hentry
  cases hkind : entry.1 with
  | slot slot =>
    have hslot : slot ∈ Form.slots r.form :=
      List.mem_filterMap.2 ⟨entry, hentry, by simp [hkind]⟩
    obtain ⟨earlier, hearlier, rfl⟩ := List.mem_map.1 (hsublist.subset hslot)
    have hbefore := Production.earlier_of_parts hparts (List.mem_append_left skipped hearlier)
    exact ⟨fun heq => hbefore.2.1 (Role.slot.inj heq), hbefore.2.2⟩
  | item => exact absurd (hkind ▸ hrole) h.items
  | extra => exact ⟨nofun, rfl⟩

/-- A part that is still to come is one of the production's parts. -/
theorem Sound.mem_parts {r : SequenceReader} (h : r.Sound) {part : Part} {rest : List Part}
    (hrest : part :: rest <:+ r.remaining) : part ∈ Production.parts r.kind := by
  obtain ⟨passed, hparts, _⟩ := h.order
  rw [hparts]
  exact List.mem_append_right passed (hrest.subset List.mem_cons_self)

/-- A block is passed only when the part that it depends on is there. -/
theorem Going.block_of_rest {r : SequenceReader} (h : r.Going) {part : Part} {rest : List Part}
    (hrest : part :: rest <:+ r.remaining) (hmet : r.requirementMet part) {block : Part}
    (hblock : block ∈ Production.parts r.kind) (hisBlock : block.isBlock)
    (hpassed : block ∉ rest) : r.requirementMet block := by
  by_cases hremaining : block ∈ r.remaining
  · obtain ⟨passed, hparts, _⟩ := h.order
    obtain ⟨skipped, hskipped⟩ := hrest
    rw [← hskipped, ← List.append_assoc] at hparts
    rw [← hskipped, List.mem_append, List.mem_cons] at hremaining
    rcases hremaining with hearlier | rfl | hlater
    · have hbefore := Production.earlier_of_parts hparts (List.mem_append_right passed hearlier)
      rw [hbefore.1] at hisBlock
      cases hisBlock
    · exact hmet
    · exact absurd hlater hpassed
  · exact h.block block hblock hisBlock hremaining

/-- Skipping parts changes nothing else. -/
theorem Going.skip {r : SequenceReader} (h : r.Going) {part : Part} {rest : List Part}
    (hrest : part :: rest <:+ r.remaining) (hmet : r.requirementMet part) :
    ({ r with remaining := part :: rest } : SequenceReader).Going := by
  obtain ⟨passed, hparts, hsublist⟩ := h.order
  refine ⟨{ h.toSound with order := ?_, block := ?_ }, h.done, h.handback, h.line, h.inactive⟩
  · obtain ⟨skipped, hskipped⟩ := hrest
    refine ⟨passed ++ skipped, by simp [hparts, ← hskipped], ?_⟩
    rw [List.map_append]
    exact hsublist.trans (List.sublist_append_left _ _)
  · intro block hblock hisBlock hpassed
    exact h.block_of_rest hrest hmet hblock hisBlock fun hmem =>
      hpassed (List.mem_cons_of_mem part hmem)

/-- Passing a part changes nothing else. -/
theorem Going.pass {r : SequenceReader} (h : r.Going) {part : Part} {rest : List Part}
    (hrest : part :: rest <:+ r.remaining) (hmet : r.requirementMet part) :
    ({ r with remaining := rest } : SequenceReader).Going := by
  obtain ⟨passed, hparts, hsublist⟩ := (h.skip hrest hmet).order
  refine ⟨{ h.toSound with order := ?_, block := ?_ }, h.done, h.handback, h.line, h.inactive⟩
  · refine ⟨passed ++ [part], by simp [hparts], ?_⟩
    rw [List.map_append]
    exact hsublist.trans (List.sublist_append_left _ _)
  · intro block hblock hisBlock hpassed
    exact h.block_of_rest hrest hmet hblock hisBlock hpassed

/-- Filling a part keeps the invariant. -/
theorem Going.fill {r : SequenceReader} (h : r.Going) {part : Part} {rest : List Part}
    (hrest : part :: rest <:+ r.remaining) (hmet : r.requirementMet part) (token : Tree) :
    ({ r with form := r.form ++ [(.slot part.slot, token)], remaining := rest } :
      SequenceReader).Going := by
  have hpass := h.pass hrest hmet
  obtain ⟨passed, hparts, hsublist⟩ := (h.skip hrest hmet).order
  refine ⟨{
    hands := h.hands
    items := by simp [h.items]
    order := ⟨passed ++ [part], by simp [hparts], ?_⟩
    required := fun other hother hslot => ?_
    block := fun block hblock hisBlock hpassed =>
      requirementMet_append (hpass.block block hblock hisBlock hpassed) _ },
    h.done, h.handback, h.line, h.inactive⟩
  · rw [Form.slots_append, List.map_append]
    exact hsublist.append (by simp)
  · refine requirementMet_append (r := r) ?_ _
    rw [Form.slots_append, List.mem_append] at hslot
    rcases hslot with hslot | hslot
    · exact h.required other hother hslot
    · obtain rfl := Production.eq_of_slot_eq hother (h.mem_parts hrest) (by simpa using hslot)
      exact hmet

/-! ### The colon of a variable -/

/-- The slots of a variable that may stand before the colon of its type, and those that may stand
after it. -/
theorem pairwise_memberVariable :
    ((Production.parts .memberVariable).map Part.slot).Pairwise fun earlier later =>
      (earlier = .typeColon → later ∈ [.type, .assign, .initializer, .accessorColon, .accessors]) ∧
        (later = .typeColon → earlier ∈ [.static, .keyword, .name]) := by
  decide

/-- A part is filled only when the part that it depends on is. -/
theorem Sound.mem_slots_of_requires {r : SequenceReader} (h : r.Sound) (part : Part)
    (hpart : part ∈ Production.parts r.kind) (hslot : part.slot ∈ Form.slots r.form) {slot : Slot}
    (hrequires : part.requires = some slot) : slot ∈ Form.slots r.form := by
  have hmet := h.required part hpart hslot
  rw [requirementMet, hrequires] at hmet
  exact Form.isFilled_iff.1 hmet

/-- Unless a type, a value or accessors follow it, the colon of a variable's type is its last
part. -/
theorem Sound.last_typeColon {r : SequenceReader} (h : r.Sound) (hkind : r.kind = .memberVariable)
    {colon : Tree} (hcolon : Form.occupant? .typeColon r.form = some colon)
    (htype : .type ∉ Form.slots r.form) (hassign : .assign ∉ Form.slots r.form)
    (haccessor : .accessorColon ∉ Form.slots r.form) :
    ∃ before trailing, r.form = before ++ (.slot .typeColon, colon) :: Form.extras trailing ∧
      (Form.slots before).Sublist [.static, .keyword, .name] := by
  obtain ⟨⟨role, child⟩, hfind, rfl⟩ := Option.map_eq_some_iff.1 hcolon
  obtain ⟨hrole, before, after, hform, _⟩ := List.find?_eq_some_iff_append.1 hfind
  obtain rfl : role = .slot .typeColon := by simpa using hrole
  have hslots : Form.slots r.form = Form.slots before ++ .typeColon :: Form.slots after := by
    simp [hform]
  obtain ⟨passed, hparts, hsublist⟩ := h.order
  rw [hkind] at hparts
  have hall : (Form.slots r.form).Sublist ((Production.parts .memberVariable).map Part.slot) := by
    rw [hparts, List.map_append]
    exact hsublist.trans (List.sublist_append_left _ _)
  have hpairwise := pairwise_memberVariable.sublist hall
  rw [hslots, List.pairwise_append, List.pairwise_cons] at hpairwise
  have hafter : Form.slots after = [] := by
    refine List.eq_nil_iff_forall_not_mem.2 fun slot hslot => ?_
    have hfilled : slot ∈ Form.slots r.form := by simp [hslots, hslot]
    have hlater := (hpairwise.2.1.1 slot hslot).1 rfl
    simp only [List.mem_cons, List.not_mem_nil, or_false] at hlater
    rcases hlater with rfl | rfl | rfl | rfl | rfl
    · exact htype hfilled
    · exact hassign hfilled
    · exact hassign (h.mem_slots_of_requires
        ⟨.initializer, .expression .value, some .assign⟩
        (by rw [hkind]; decide) hfilled rfl)
    · exact haccessor hfilled
    · exact haccessor (h.mem_slots_of_requires
        ⟨.accessors, .block .accessors, some .accessorColon⟩
        (by rw [hkind]; decide) hfilled rfl)
  have hextras : after = Form.extras (after.map Prod.snd) := by
    refine Form.eq_extras_of_slots hafter fun entry hentry hitem => h.items ?_
    rw [← hitem, hform]
    exact Form.mem_roles (List.mem_append_right before (List.mem_cons_of_mem _ hentry))
  refine ⟨before, after.map Prod.snd, by rw [← hextras]; exact hform, ?_⟩
  have hbefore : ∀ slot ∈ Form.slots before, [Slot.static, .keyword, .name].contains slot :=
    fun slot hslot => by
      simpa using (hpairwise.2.2 slot hslot .typeColon List.mem_cons_self).2 rfl
  have hfilter := ((List.sublist_append_left (Form.slots before) _).trans (hslots ▸ hall)).filter
    fun slot => [Slot.static, .keyword, .name].contains slot
  rw [List.filter_eq_self.2 hbefore] at hfilter
  exact hfilter

/-- What stands before the colon of a variable's type stands before the one of its accessors. -/
theorem appends_accessorColon {before : List Entry}
    (hslots : (Form.slots before).Sublist [.static, .keyword, .name])
    (hitems : .item ∉ Form.roles before) :
    Form.Appends .memberVariable .accessorColon before := by
  intro entry hentry
  have hrole := Form.mem_roles hentry
  cases hkind : entry.1 with
  | slot slot =>
    have hslot : slot ∈ Form.slots before :=
      List.mem_filterMap.2 ⟨entry, hentry, by simp [hkind]⟩
    have hmem := hslots.subset hslot
    simp only [List.mem_cons, List.not_mem_nil, or_false] at hmem
    rcases hmem with rfl | rfl | rfl <;> decide
  | item => exact absurd (hkind ▸ hrole) hitems
  | extra => exact ⟨nofun, rfl⟩

/-- Where accessors are announced, none of them was passed. -/
theorem Sound.blockReserve_of_unannounced {r : SequenceReader} (h : r.Sound)
    (hkind : r.kind = .memberVariable) (haccessor : .accessorColon ∉ Form.slots r.form) :
    blockReserve r.remaining = 2 := by
  have haccessors : (⟨.accessors, .block .accessors, some .accessorColon⟩ : Part) ∈
      r.remaining := by
    refine Classical.byContradiction fun hpassed => haccessor ?_
    have hmet := h.block _ (by rw [hkind]; decide) rfl hpassed
    rw [requirementMet] at hmet
    exact Form.isFilled_iff.1 hmet
  exact if_pos (List.any_eq_true.2 ⟨_, haccessors, rfl⟩)

/-- The colon of a variable's type may become the one of its accessors. -/
theorem retarget_going {r : SequenceReader} (h : r.Going) (hkind : r.kind = .memberVariable)
    {before : List Entry} {colon : Tree} {trailing : List Tree}
    (hform : r.form = before ++ (.slot .typeColon, colon) :: Form.extras trailing)
    (hslots : (Form.slots before).Sublist [.static, .keyword, .name]) :
    ({ r with
        form := before ++ [(.slot .accessorColon, colon)] ++ Form.extras trailing
        remaining := (Production.parts r.kind).dropWhile fun part => part.slot != .accessors } :
      SequenceReader).Going := by
  have hbefore : .item ∉ Form.roles before := fun hitem => h.items (by simp [hform, hitem])
  have hfilled :
      (Form.slots (before ++ [(.slot .accessorColon, colon)] ++ Form.extras trailing)).Sublist
      [.static, .keyword, .name, .accessorColon] := by
    simpa using hslots.append (List.Sublist.refl [Slot.accessorColon])
  refine ⟨{
    hands := h.hands
    items := by simp [hbefore]
    order := ⟨(Production.parts r.kind).takeWhile fun part => part.slot != .accessors,
      List.takeWhile_append_dropWhile.symm, ?_⟩
    required := ?_
    block := ?_ }, h.done, h.handback, h.line, h.inactive⟩
  · rw [hkind]
    exact hfilled.trans (by decide)
  · intro part hpart hslot
    have hrequires : ∀ part ∈ Production.parts .memberVariable,
        part.slot ∈ [Slot.static, .keyword, .name, .accessorColon] → part.requires = none := by
      decide
    rw [hkind] at hpart
    rw [requirementMet, hrequires part hpart (hfilled.subset hslot)]
    rfl
  · intro block hblock hisBlock hpassed
    have hlast : ∀ part ∈ Production.parts .memberVariable, part.isBlock →
        part ∈ (Production.parts .memberVariable).dropWhile fun part =>
          part.slot != .accessors := by
      decide
    rw [hkind] at hblock hpassed
    exact absurd (hlast block hblock hisBlock) hpassed

/-- Where a line ends after the colon of a variable, the colon changes its slot and nothing else
changes. -/
theorem retargetColon_yields {r : SequenceReader} (h : r.Going) (hkind : r.kind = .memberVariable) :
    Yields r.retargetColon fun r' =>
      r'.Going ∧ r'.text = r.text ∧ blockReserve r'.remaining ≤ blockReserve r.remaining := by
  have hkept : Yields (pure r : Except Misfit SequenceReader) fun r' =>
      r'.Going ∧ r'.text = r.text ∧ blockReserve r'.remaining ≤ blockReserve r.remaining :=
    yields_pure.2 ⟨h, rfl, Nat.le_refl _⟩
  rw [retargetColon]
  dsimp only
  split
  · exact hkept
  · rename_i colon hcolon
    split
    · exact hkept
    · rename_i hblocked
      have hunfilled : .type ∉ Form.slots r.form ∧ .assign ∉ Form.slots r.form ∧
          .accessorColon ∉ Form.slots r.form := by
        simpa [← Form.isFilled_iff] using hblocked
      obtain ⟨htype, hassign, haccessor⟩ := hunfilled
      obtain ⟨before, trailing, hform, hslots⟩ :=
        h.last_typeColon hkind hcolon htype hassign haccessor
      have hbefore : .item ∉ Form.roles before := fun hitem => h.items (by simp [hform, hitem])
      have hsplit : Form.splitTrailing r.form
          = (before ++ [(.slot .typeColon, colon)], trailing) := by
        rw [hform]
        exact Form.splitTrailing_append_extras (by decide) colon before trailing
      have hfilter : (before ++ [(Role.slot .typeColon, colon)]).filter
          (fun entry => entry.1 != Role.slot .typeColon) = before := by
        rw [List.filter_append, List.filter_eq_self.2]
        · simp
        · intro entry hentry
          simp only [bne_iff_ne]
          intro hrole
          have hslot : Slot.typeColon ∈ Form.slots before :=
            List.mem_filterMap.2 ⟨entry, hentry, by simp [hrole]⟩
          exact absurd (hslots.subset hslot) (by decide)
      have hplace := Form.place_of_appends colon rfl (appends_accessorColon hslots hbefore)
      have hgoing := retarget_going h hkind hform hslots
      have hreserve := h.blockReserve_of_unannounced hkind haccessor
      simp only [hsplit, hfilter]
      rw [hkind] at hgoing ⊢
      rw [hplace]
      refine yields_pure.2 ⟨hgoing, ?_, hreserve ▸ Nat.le_refl 2⟩
      rw [hgoing.text_eq, h.text_eq, hform]
      simp

/-! ### Signals -/

section Signals

variable {config : Config} {signal : Signal}

/-- A part that may begin with a signal is one of the parts to come. -/
theorem startable?_spec {r : SequenceReader} {parts : List Part} {part : Part} {rest : List Part}
    (h : r.startable? signal parts = some (part, rest)) :
    part :: rest <:+ parts ∧ r.requirementMet part ∧ r.canStart part.shape signal := by
  induction parts with
  | nil => cases h
  | cons first more ih =>
    rw [startable?] at h
    split at h
    · rename_i hfirst
      cases h
      rw [Bool.and_eq_true] at hfirst
      exact ⟨List.suffix_refl _, hfirst⟩
    · obtain ⟨hsuffix, hstart⟩ := ih h
      exact ⟨hsuffix.trans (List.suffix_cons first more), hstart⟩

/-- A production that goes on may host the state of a part to come. -/
theorem Going.hosts {r : SequenceReader} (h : r.Going) {part : Part} {rest : List Part}
    (hrest : part :: rest <:+ r.remaining) (hmet : r.requirementMet part) {layer : Layer}
    (hleaf : part.shape.isLeaf → layer.isLeaf)
    (hblock : part.isBlock → ∃ mode, layer = .block mode) :
    ({ r with active := some (part, rest) } : SequenceReader).Hosts layer := by
  refine ⟨{ h.toSound with }, h.done, nofun, ?_⟩
  rintro _ _ ⟨⟩
  exact ⟨hrest, hmet, hleaf, hblock⟩

/-- The state that reads a part other than a block begins with the character. -/
theorem takes_partReader {r : SequenceReader} {shape : Shape} {c : Char} {inner : Reader}
    (hstart : r.canStart shape (.char c)) (hinner : r.partReader? shape (.char c) = some inner)
    (hblock : ∀ kind, shape ≠ .block kind) :
    Reader.Takes config (.char c) 3 inner ∧ inner.text = "" ∧
      (shape.isLeaf → inner.layer.isLeaf) := by
  have hword (h : Text.isWordStart c) : Reader.Takes config (.char c) 3 (.leaf (.word "")) :=
    (Reader.takes_leaf (LeafReader.begins_word h)).mono (by omega)
  cases shape with
  | keyword words =>
    cases hinner
    exact ⟨hword hstart, rfl, fun _ => rfl⟩
  | contextual text =>
    cases hinner
    exact ⟨hword hstart, rfl, fun _ => rfl⟩
  | name =>
    cases hinner
    exact ⟨hword hstart, rfl, fun _ => rfl⟩
  | punct mark => cases hinner
  | operator op =>
    cases hinner
    have htakes : Reader.Takes config (.char c) 1 (.leaf (.operator "")) :=
      Reader.takes_leaf (LeafReader.begins_operator c)
    exact ⟨htakes.mono (by omega), rfl, fun _ => rfl⟩
  | expression role =>
    cases hinner
    have htakes : Reader.Takes config (.char c) 2 (.expression { ctx := r.context role }) :=
      ExpressionReader.takes_of_canStart hstart
    exact ⟨htakes.mono (by omega), by simp [ExpressionReader.text], by simp [Shape.isLeaf]⟩
  | group kind =>
    by_cases hpatterns : kind = .patterns
    · subst hpatterns
      cases hinner
      exact ⟨GroupReader.takes_patterns hstart,
        by simp [GroupReader.text, GroupReader.sealedForm, GroupReader.start],
        by simp [Shape.isLeaf]⟩
    · have hopens : kind.opensWith c := by
        cases kind <;> first | exact hstart | exact absurd rfl hpatterns
      have hgroup : inner = .group (.start kind (Context.value r.level).bracketed) := by
        cases kind <;> first | exact (Option.some.inj hinner).symm | exact absurd rfl hpatterns
      have htakes : Reader.Takes config (.char c) 1
          (.group (.start kind (Context.value r.level).bracketed)) :=
        Reader.takes_group (Context.value r.level).bracketed hopens
      subst hgroup
      exact ⟨htakes.mono (by omega),
        by simp [GroupReader.text, GroupReader.sealedForm, GroupReader.start],
        by simp [Shape.isLeaf]⟩
  | block kind => exact absurd rfl (hblock kind)

/-- The end of the text begins no part, and all parts but blocks begin with a character that has
no signal of its own. -/
theorem char_of_canStart {r : SequenceReader} {shape : Shape} (h : r.canStart shape signal) :
    signal.toChar?.isSome ∧ ((∀ kind, shape ≠ .block kind) → ∃ c, signal = .char c) := by
  cases signal with
  | char c => exact ⟨rfl, fun _ => ⟨c, rfl⟩⟩
  | endOfText => cases h
  | _ =>
    refine ⟨rfl, fun hblock => ?_⟩
    cases shape with
    | block kind => exact absurd rfl (hblock kind)
    | _ => cases h

/-- A part is a block when its shape is. -/
theorem isBlock_eq_false {part : Part} (h : ∀ kind, part.shape ≠ .block kind) :
    part.isBlock = false := by
  rw [Part.isBlock]
  split
  · rename_i kind hshape
    exact absurd hshape (h kind)
  · rfl

/-- A mark fills its part at once. -/
theorem placeMark_yields {r : SequenceReader} (h : r.Going) {part : Part} {rest : List Part}
    (hrest : part :: rest <:+ r.remaining) (hmet : r.requirementMet part) {mark : Punct}
    (hshape : part.shape = .punct mark) {c : Char} (hstart : mark.startsWith c)
    (takes : Reader → Prop) :
    Yields (Form.place r.kind part.slot (.ofPunct mark) r.form) fun form =>
      Reader.Taken (.char c) takes (.sequence r)
        ⟨.sequence { r with active := none, form, remaining := rest }, .accept, {}⟩ := by
  have hpart := h.mem_parts hrest
  have hsingle := Production.ne_doubleDot_of_mem_parts hpart hshape
  have hspelling := Punct.spelling_of_startsWith hstart hsingle
  rw [Form.place_of_appends _ (Production.declares_of_mem_parts hpart) (h.appends hrest)]
  have hfill := h.fill hrest hmet (.ofPunct mark)
  have hgoing : ({ r with
      active := none, form := r.form ++ [(.slot part.slot, .ofPunct mark)], remaining := rest } :
      SequenceReader).Going :=
    ⟨{ hfill.toSound with }, h.done, h.handback, h.line, rfl⟩
  refine yields_ok.2 ⟨rfl, hgoing.rests, ?_⟩
  rw [Reader.text_sequence, Reader.text_sequence, hgoing.text_eq, h.text_eq]
  simp [hspelling, Signal.text, Signal.toChar?]

/-- A production that opens its block pays for it. -/
theorem detoured_block {r : SequenceReader} (h : r.Going) {part : Part} {rest : List Part}
    (hrest : part :: rest <:+ r.remaining) (hmet : r.requirementMet part)
    (hblock : part.isBlock) (hleaf : part.shape.isLeaf = false) {block : BlockReader}
    (hrests : block.Rests) (htext : block.text = "") :
    Reader.Detoured (.sequence r)
      ⟨.sequence { r with active := some (part, rest) }, .enter (.block block), {}⟩
      (.block block) := by
  have hmem : part ∈ r.remaining := hrest.subset List.mem_cons_self
  refine ⟨rfl, rfl, h.hosts hrest hmet (by simp [hleaf]) fun _ => ⟨block.mode, rfl⟩, hrests, ?_, ?_,
    by simp⟩
  · rw [Reader.text_block, htext, String.append_empty]
    rfl
  · have hreserve : r.blockCost = 2 := by
      rw [blockCost, h.inactive, Option.any_none, if_neg (by simp)]
      exact if_pos (List.any_eq_true.2 ⟨part, hmem, hblock⟩)
    have hopen : ({ r with active := some (part, rest) } : SequenceReader).blockCost = 0 := by
      simp [blockCost, hblock]
    simp only [Reader.cost, Reader.credit]
    omega

/-- All parts but marks are read by a state of their own. -/
theorem isSome_partReader? (r : SequenceReader) {shape : Shape} (h : ∀ mark, shape ≠ .punct mark)
    (signal : Signal) : (r.partReader? shape signal).isSome := by
  cases shape with
  | punct mark => exact absurd rfl (h mark)
  | group kind => cases kind <;> rfl
  | block kind => cases signal <;> rfl
  | _ => rfl

/-- A block of which nothing was read yet is at rest. -/
theorem rests_of_partReader? {r : SequenceReader} {kind : BlockKind} {inner : Reader}
    (h : r.partReader? (.block kind) signal = some inner) :
    ∃ block, inner = .block block ∧ block.Rests ∧ block.text = "" := by
  have hstart (mode : BlockMode) (level : Option Nat) (phase : BlockPhase) :
      (BlockReader.start kind mode level phase).Rests ∧
        (BlockReader.start kind mode level phase).text = "" := by
    refine ⟨⟨nofun, fun hheld => absurd rfl hheld, nofun, fun hindent => absurd rfl hindent, rfl,
      fun hline => absurd rfl hline⟩, ?_⟩
    simp [BlockReader.text, BlockReader.start]
  cases signal <;> cases h <;> exact ⟨_, rfl, hstart _ _ _⟩

/-- Beginning a part takes the signal, or opens a block for it. -/
theorem startPart_yields (config : Config) {r : SequenceReader} (h : r.Going) {part : Part}
    {rest : List Part} (hrest : part :: rest <:+ r.remaining) (hmet : r.requirementMet part)
    (hstart : r.canStart part.shape signal) :
    Yields (r.startPart part rest signal) fun reaction =>
      Reader.Taken signal (Reader.Takes config signal 3) (.sequence r) (reaction.map .sequence) ∨
        part.isBlock ∧
          ∃ inner, Reader.Detoured (.sequence r) (reaction.map .sequence) inner := by
  obtain ⟨hchar, hsignal⟩ := char_of_canStart hstart
  unfold startPart
  split
  · rename_i mark hshape
    obtain ⟨c, rfl⟩ := hsignal (by simp [hshape])
    rw [hshape] at hstart
    obtain ⟨form, hplace, htaken⟩ := placeMark_yields h hrest hmet hshape hstart
      (Reader.Takes config (.char c) 3)
    rw [hplace]
    exact yields_pure.2 (.inl htaken)
  · rename_i hmark
    split
    · rename_i inner hinner
      refine yields_pure.2 ?_
      by_cases hblock : ∃ kind, part.shape = .block kind
      · obtain ⟨kind, hshape⟩ := hblock
        have hisBlock : part.isBlock := by simp [Part.isBlock, hshape]
        rw [hshape] at hinner
        obtain ⟨block, rfl, hrests, htext⟩ := rests_of_partReader? hinner
        exact .inr ⟨hisBlock, _, detoured_block h hrest hmet hisBlock
          (by simp [hshape, Shape.isLeaf]) hrests htext⟩
      · have hblock' : ∀ kind, part.shape ≠ .block kind := fun kind hshape =>
          hblock ⟨kind, hshape⟩
        obtain ⟨c, rfl⟩ := hsignal hblock'
        obtain ⟨htakes, htext, hleaf⟩ := takes_partReader hstart hinner hblock'
        refine .inl ⟨rfl, h.hosts hrest hmet hleaf ?_, ?_, htakes⟩
        · simp [isBlock_eq_false hblock']
        · rw [htext, String.append_empty]
          rfl
    · rename_i hnone
      have hsome := r.isSome_partReader? (fun mark hshape => hmark mark hshape) signal
      rw [hnone] at hsome
      cases hsome

/-- What a production does before a signal begins one of its parts keeps its text. -/
theorem beforePart_yields {r : SequenceReader} (h : r.Going) (signal : Signal) :
    Yields (r.beforePart signal) fun r' =>
      r'.Going ∧ r'.text = r.text ∧ blockReserve r'.remaining ≤ blockReserve r.remaining := by
  rw [beforePart]
  split
  · rename_i hcolon
    exact retargetColon_yields h hcolon.2
  · exact yields_ok.2 ⟨h, rfl, Nat.le_refl _⟩

/-- Trivia are read by a state of their own. -/
theorem taken_trivia {r : SequenceReader} (h : r.Going) {leaf : LeafReader}
    (hbegins : leaf.Begins signal) :
    Reader.Taken signal (Reader.Takes config signal 3) (.sequence r)
      ⟨.sequence { r with active := none }, .enter (.leaf leaf), {}⟩ := by
  have htakes : Reader.Takes config signal 3 (.leaf leaf) :=
    (Reader.takes_leaf hbegins).mono (by omega)
  have hhosts : ({ r with active := none } : SequenceReader).Hosts leaf.layer :=
    ⟨{ h.toSound with }, h.done, fun _ => leaf.isLeaf_layer, fun _ _ hactive => by cases hactive⟩
  refine ⟨rfl, hhosts, ?_, htakes⟩
  rw [Reader.text_leaf, hbegins.text_eq, String.append_empty]
  rfl

/-- What a production makes of a signal that begins no trivia. -/
theorem onPart_yields (config : Config) {r : SequenceReader} (h : r.Going) (signal : Signal) :
    Yields (match r.startable? signal r.remaining with
        | some (part, rest) => r.startPart part rest signal
        | none => .ok ⟨r, .complete, {}⟩) fun reaction =>
      Reader.Reacts config signal 3 (.sequence r) (reaction.map .sequence) := by
  split
  · rename_i part rest hpart
    obtain ⟨hrest, hmet, hstart⟩ := startable?_spec hpart
    have hchar := (char_of_canStart hstart).1
    refine (startPart_yields config h hrest hmet hstart).mono fun reaction hreaction => ?_
    rcases hreaction with htaken | ⟨_, inner, hdetoured⟩
    · exact .taken htaken hchar
    · exact .detoured inner hdetoured hchar
  · exact yields_ok.2 (.left ⟨rfl, rfl, h.toSound, rfl, Nat.le_refl _⟩)

/-- What a production makes of a signal. -/
theorem onSignal_yields (config : Config) {r : SequenceReader} (h : r.Rests) (signal : Signal) :
    Yields (r.onSignal signal) fun reaction =>
      Reader.Reacts config signal 3 (.sequence r) (reaction.map .sequence) := by
  have hleft (notices : Notices) : Reader.Reacts config signal 3 (.sequence r)
      (Reaction.map .sequence ⟨r, .complete, notices⟩) :=
    .left ⟨rfl, rfl, h.toSound, rfl, Nat.le_refl _⟩
  unfold onSignal
  split
  · exact yields_pure.2 (hleft _)
  · rename_i hdone
    have hgoing := h.toGoing (by simpa using hdone)
    split
    · rename_i leaf hinline
      obtain ⟨hbegins, hchar⟩ := TriviaStart.begins_of_inline? hinline
      exact yields_pure.2 (.taken (taken_trivia hgoing hbegins) hchar)
    · split
      · exact yields_pure.2 (hleft _)
      · refine (beforePart_yields hgoing signal).bind fun r' hr' => ?_
        obtain ⟨hgoing', htext, hreserve⟩ := hr'
        refine (onPart_yields config hgoing' signal).mono fun reaction hreaction => ?_
        refine hreaction.of_text rfl htext ?_ ?_
        · simp [Reader.credit, hgoing'.handback, handbackCost]
        · simpa [Reader.cost, blockCost, hgoing.inactive, hgoing'.inactive, hgoing.handback,
            hgoing'.handback] using hreserve

/-- A production answers every signal. -/
theorem answers {r : SequenceReader} (h : r.Rests) :
    Reader.Answers config signal (.sequence r) :=
  Yields.map (onSignal_yields config h signal) fun _ hreaction => hreaction.mono (by omega)

/-- A production that is opened on a character with which its first part begins takes it. -/
theorem takes_start {kind : NodeKind} {part : Part} {rest : List Part}
    (hparts : Production.parts kind = part :: rest) (hrequires : part.requires = none)
    (hblock : part.isBlock = false) (level : Nat) (brackets : Bool) {c : Char}
    (hstart : (start kind level brackets).canStart part.shape (.char c)) :
    Reader.Takes config (.char c) 4 (.sequence (.start kind level brackets)) := by
  have hgoing : (start kind level brackets).Going := (rests_start kind level brackets).toGoing rfl
  have hmet : (start kind level brackets).requirementMet part := by
    simp [requirementMet, hrequires]
  have hrest : part :: rest <:+ (start kind level brackets).remaining := ⟨[], hparts.symm⟩
  have hpart : (start kind level brackets).startable? (.char c)
      (start kind level brackets).remaining = some (part, rest) := by
    have hremaining : (start kind level brackets).remaining = part :: rest := hparts
    rw [hremaining, startable?, if_pos (by simp [hmet, hstart])]
  cases hinline : TriviaStart.inline? (.char c) with
  | some leaf =>
    have hbegins := (TriviaStart.begins_of_inline? hinline).1
    refine ⟨_, ?_, taken_trivia hgoing hbegins⟩
    simp [Reader.onSignal, onSignal, start, hinline, Except.map, Reaction.map, pure, Except.pure]
  | none =>
    obtain ⟨reaction, hreaction, htaken | hdetoured⟩ :=
      startPart_yields config hgoing hrest hmet hstart
    · have hsignal : (start kind level brackets).onSignal (.char c) = .ok reaction := by
        have hbefore : (start kind level brackets).beforePart (.char c)
            = .ok (start kind level brackets) := by simp [beforePart]
        unfold onSignal
        rw [hinline, hbefore]
        simp only [hgoing.done, Bool.false_eq_true, if_false, bind, Except.bind, hpart, hreaction]
      exact ⟨_, congrArg (Except.map _) hsignal, htaken⟩
    · rw [hblock] at hdetoured
      cases hdetoured.1

end Signals

/-! ### Deliveries -/

/-- The receipt of a production fits what was delivered to it. -/
abbrev Fits (text : String) (budget : Nat) (receipt : Receipt SequenceReader) : Prop :=
  (receipt.map Reader.sequence).Fits .sequence text budget

/-- A production that goes on pays for the block that may come. -/
theorem Going.fits {r : SequenceReader} (h : r.Going) {text : String} {budget : Nat}
    {notices : Notices} (htext : r.text = text) (hbudget : 1 + blockReserve r.remaining ≤ budget) :
    Fits text budget { state := r, notices } := by
  refine ⟨rfl, h.rests, ?_, ?_⟩
  · simp [Receipt.map, Reader.textOfAll, htext]
  · simpa [Receipt.map, Reader.costOfAll, Reader.cost, h.handback, handbackCost, blockCost,
      h.inactive] using hbudget

/-- A token that is handed on is paid for by the steps that come with it. -/
theorem Going.fits_handBack {r : SequenceReader} (h : r.Going) (token : Tree) {text : String}
    {budget : Nat} (htext : r.text ++ token.text = text)
    (hbudget : 11 + blockReserve r.remaining ≤ budget) :
    Fits text budget { state := r.handBack token } := by
  have heq : r.handBack token = { r with handback := some token, done := true } := by
    simp [handBack, h.handback]
  rw [heq]
  refine ⟨rfl, ⟨{ h.toSound with hands := ?_ }, h.inactive⟩, ?_, ?_⟩
  · simp only [h.line]
    exact .token token
  · rw [← htext, h.text_eq]
    simp [Receipt.map, Reader.textOfAll, SequenceReader.text, textHandedOn, h.line]
  · simp only [Receipt.map, Reader.costOfAll, Reader.cost, handbackCost, blockCost, h.inactive,
      Option.any_none, Bool.false_eq_true, if_false, List.map_nil, List.sum_nil]
    omega

/-- What becomes of a token that a production takes: it is placed, or it begins an expression that
fills a part. -/
inductive Offered (r : SequenceReader) (token : Tree) (receipt : Receipt SequenceReader) :
    Prop where
  | placed (hgoing : receipt.state.Going) (hopened : receipt.opened = [])
    (htext : receipt.state.text = r.text ++ token.text)
    (hremaining : receipt.state.remaining <:+ r.remaining)
  | seeded (ctx : Context) (hstart : ctx.canStartWith token)
    (hfits : Fits (r.text ++ token.text) (7 + blockReserve r.remaining) receipt)

theorem Offered.fits {r : SequenceReader} {token : Tree} {receipt : Receipt SequenceReader}
    (h : r.Offered token receipt) :
    Fits (r.text ++ token.text) (7 + blockReserve r.remaining) receipt := by
  cases h with
  | placed hgoing hopened htext hremaining =>
    have hreserve := blockReserve_le_of_suffix hremaining
    have hfits : Fits (r.text ++ token.text) (7 + blockReserve r.remaining)
        { state := receipt.state } := hgoing.fits htext (by omega)
    exact hfits.of_eq rfl (by simp [Receipt.map, hopened])
  | seeded ctx hstart hfits => exact hfits

/-- A word begins the expression of a part. -/
theorem seeds_yields {r : SequenceReader} (h : r.Going) {part : Part} {rest : List Part}
    (hrest : part :: rest <:+ r.remaining) (hmet : r.requirementMet part) {role : ExpressionRole}
    (hshape : part.shape = .expression role) {token : Tree}
    (hstart : (r.context role).canStartWith token) :
    Yields (ExpressionReader.seeded (r.context role) token) fun seeded =>
      Fits (r.text ++ token.text) (7 + blockReserve r.remaining)
        { state := { r with active := some (part, rest), remaining := part :: rest }
          opened := .expression seeded.state :: seeded.opened } := by
  refine (ExpressionReader.seeded_yields hstart).mono fun seeded hseeded => ?_
  have hsuffix := blockReserve_le_of_suffix hrest
  have hnested := hseeded.nested
  have htext := hseeded.text_eq
  have hcost := hseeded.cost_le
  simp only [Receipt.map] at hnested htext hcost
  refine ⟨rfl, ⟨?_, hnested⟩, ?_, ?_⟩
  · have hskip := h.skip hrest hmet
    refine ⟨{ hskip.toSound with }, h.done, by simp, ?_⟩
    rintro _ _ ⟨⟩
    exact ⟨List.suffix_refl _, hmet, by simp [hshape, Shape.isLeaf],
      by simp [Part.isBlock, hshape]⟩
  · have hsame : ({ r with active := some (part, rest), remaining := part :: rest } :
        SequenceReader).text = r.text := rfl
    simp only [Receipt.map, Reader.text_sequence, hsame, Reader.textOfAll_cons, htext]
  · have hblock : blockCost { r with active := some (part, rest), remaining := part :: rest }
        ≤ blockReserve r.remaining := by
      simpa [blockCost, Part.isBlock, hshape] using hsuffix
    have hhandback : handbackCost r.handback = 0 := by simp [h.handback, handbackCost]
    simp only [Receipt.map, Reader.cost, Reader.costOfAll_cons] at hcost ⊢
    omega

/-- A token is offered to the parts to come, one after another. -/
theorem offer?_yields {r : SequenceReader} (h : r.Going) (token : Tree) {parts : List Part}
    (hparts : parts <:+ r.remaining) :
    Yields (r.offer? token parts) fun result => ∀ receipt ∈ result, r.Offered token receipt := by
  induction parts with
  | nil => simp [offer?]
  | cons part rest ih =>
    have hrest := ih ((List.suffix_cons part rest).trans hparts)
    rw [offer?]
    split
    · exact hrest
    · rename_i hmet
      rw [Bool.not_eq_true, Bool.not_eq_false'] at hmet
      split
      · rename_i hfills
        have hdeclares := Production.declares_of_mem_parts (h.mem_parts hparts)
        rw [Form.place_of_appends token hdeclares (h.appends hparts)]
        refine yields_pure.2 fun receipt hreceipt => ?_
        cases hreceipt
        have hgoing := h.fill hparts hmet token
        refine .placed hgoing rfl ?_ ((List.suffix_cons part rest).trans hparts)
        rw [hgoing.text_eq, h.text_eq]
        simp
      · split
        · rename_i role hshape
          split
          · rename_i hstart
            refine (seeds_yields h hparts hmet hshape hstart).bind fun seeded hseeded => ?_
            refine yields_pure.2 fun receipt hreceipt => ?_
            cases hreceipt
            exact .seeded (r.context role) hstart hseeded
          · exact hrest
        · exact hrest

/-- A token that was read before the production was chosen is taken in any case. -/
theorem seed_yields {r : SequenceReader} (h : r.Going) (token : Tree) :
    Yields (r.seed token) (r.Offered token) := by
  have hextra (t : Tree) (ht : t.text = token.text) :
      r.Offered token { state := r.pushExtras [t] } :=
    .placed (h.pushExtras [t]) rfl (by simp [h, ht]) (List.suffix_refl _)
  rw [seed]
  split
  · exact yields_pure.2 (hextra token rfl)
  · refine (offer?_yields h token (List.suffix_refl _)).bind fun result hresult => ?_
    refine yields_pure.2 ?_
    cases result with
    | none => exact hextra _ (Tree.text_invalidated token)
    | some receipt => exact hresult receipt rfl

/-- A token that no part takes is handed on. -/
theorem offer?_fits {r : SequenceReader} (h : r.Going) (token : Tree) {parts : List Part}
    (hparts : parts <:+ r.remaining) {budget : Nat}
    (hbudget : 11 + blockReserve r.remaining ≤ budget) :
    Yields (r.offer? token parts) fun result =>
      Fits (r.text ++ token.text) budget (result.getD { state := r.handBack token }) := by
  refine (offer?_yields h token hparts).mono fun result hresult => ?_
  cases result with
  | none => exact h.fits_handBack token rfl hbudget
  | some receipt =>
    exact (hresult receipt rfl).fits.mono (by omega)

/-- What was read for a part that is no single word fills the part. -/
theorem onInnerToken_yields {r : SequenceReader} (h : r.Going) {part : Part} {rest : List Part}
    (hrest : part :: rest <:+ r.remaining) (hmet : r.requirementMet part)
    (hleaf : part.shape.isLeaf = false) (token : Option Tree) :
    Yields (r.onToken? (some (part, rest)) token) fun receipt =>
      receipt.opened = [] ∧ receipt.state.Going ∧
        receipt.state.text = r.text ++ Tree.textOfTokens token.toList ∧
        receipt.state.remaining <:+ r.remaining ∧
        ((∀ t ∈ token, (t.isTrivia || t.isInvalid) = false) → receipt.state.remaining = rest) := by
  have hsuffix : rest <:+ r.remaining := (List.suffix_cons part rest).trans hrest
  cases token with
  | none => exact yields_ok.2 ⟨rfl, h.pass hrest hmet, by simp [text], hsuffix, fun _ => rfl⟩
  | some token =>
    change Yields (r.onToken (some (part, rest)) token) _
    unfold onToken
    split
    · rename_i htrivia
      refine yields_pure.2 ⟨rfl, h.pushExtras [token], by simp [h], List.suffix_refl _, ?_⟩
      intro hplaced
      rw [hplaced token rfl] at htrivia
      cases htrivia
    · have hdeclares := Production.declares_of_mem_parts (h.mem_parts hrest)
      dsimp only
      rw [if_neg (by simp [hleaf]), Form.place_of_appends token hdeclares (h.appends hrest)]
      have hgoing := h.fill hrest hmet token
      refine yields_pure.2 ⟨rfl, hgoing, ?_, hsuffix, fun _ => rfl⟩
      rw [hgoing.text_eq, h.text_eq]
      simp

/-- A word or an operator fills one of the parts to come, begins an expression that does, or is
handed on. -/
theorem onLeafToken_yields {r : SequenceReader} (h : r.Going) {active : Option (Part × List Part)}
    (hactive : ∀ part rest, active = some (part, rest) →
      part :: rest <:+ r.remaining ∧ r.requirementMet part)
    (token : Option Tree) {budget : Nat} (hbudget : 11 + blockReserve r.remaining ≤ budget) :
    Yields (r.onToken? active token)
      (Fits (r.text ++ Tree.textOfTokens token.toList) budget) := by
  have hextra (token : Tree) : Fits (r.text ++ Tree.textOfTokens [token]) budget
      { state := r.pushExtras [token] } :=
    (h.pushExtras [token]).fits (text_pushExtras r [token] h)
      (Nat.le_trans (Nat.add_le_add_right (show 1 ≤ 11 by omega) _) hbudget)
  cases active with
  | none =>
    cases token with
    | none => exact yields_ok.2 (h.fits (by simp) (by omega))
    | some token =>
      change Yields (r.onToken none token) _
      unfold onToken
      split <;> exact yields_pure.2 (hextra token)
  | some active =>
    obtain ⟨part, rest⟩ := active
    obtain ⟨hrest, hmet⟩ := hactive part rest rfl
    cases hleaf : part.shape.isLeaf with
    | false =>
      refine (onInnerToken_yields h hrest hmet hleaf token).mono fun receipt hreceipt => ?_
      obtain ⟨state, opened, notices⟩ := receipt
      obtain ⟨rfl, hgoing, htext, hremaining, _⟩ := hreceipt
      have hreserve := blockReserve_le_of_suffix hremaining
      exact hgoing.fits htext (by omega)
    | true =>
      cases token with
      | none =>
        have hreserve := blockReserve_le_of_suffix ((List.suffix_cons part rest).trans hrest)
        exact yields_ok.2 ((h.pass hrest hmet).fits (by simp [text])
          (show 1 + blockReserve rest ≤ budget by omega))
      | some token =>
        change Yields (r.onToken (some (part, rest)) token) _
        unfold onToken
        split
        · exact yields_pure.2 (hextra token)
        · dsimp only
          rw [if_pos hleaf]
          refine (offer?_fits h token hrest hbudget).bind fun result hresult => ?_
          refine yields_pure.2 ?_
          simpa using hresult

/-- What comes after the token of a delivery is placed or handed on. -/
theorem afterToken_yields {r : SequenceReader} (h : r.Going) {handback : Option Tree}
    {line : Option LineStart} (hexclusive : handback = none ∨ line = none) {budget : Nat}
    (hbudget : 1 + blockReserve r.remaining + handbackCost handback ≤ budget) :
    Yields (r.onHandback? handback) fun receipt =>
      Fits (r.text ++ textHandedOn handback line) budget
        { receipt with state := receipt.state.onLine? line } := by
  cases handback with
  | none =>
    refine yields_ok.2 ?_
    cases line with
    | none => exact h.fits (by simp) (by simpa [handbackCost] using hbudget)
    | some line =>
      have hhands : HandsOn true r.handback (some line) := by
        rw [h.handback]
        exact .line line
      refine ⟨rfl, ⟨{ h.toSound with hands := hhands }, h.inactive⟩, ?_, ?_⟩
      · rw [h.text_eq]
        simp [Receipt.map, SequenceReader.text, textHandedOn, onLine?, h.handback]
      · have hcost : (Reader.sequence (r.onLine? (some line))).cost
            = 1 + blockReserve r.remaining := by
          simp [Reader.cost, onLine?, blockCost, h.inactive, h.handback, handbackCost]
        simpa [Receipt.map, hcost, handbackCost] using hbudget
  | some token =>
    obtain rfl : line = none := hexclusive.resolve_left (by simp)
    have hcost : 11 + blockReserve r.remaining ≤ budget := by
      simp only [handbackCost] at hbudget
      omega
    change Yields (r.onHandback token) _
    unfold onHandback
    rw [if_neg (by simp [h.done])]
    refine (offer?_fits h token (List.suffix_refl _) hcost).bind fun result hresult => ?_
    refine yields_pure.2 ?_
    simpa [textHandedOn, onLine?] using hresult

/-- The cost of a production inside which a state is open. -/
theorem Hosts.cost_eq {r : SequenceReader} {layer : Layer} (h : r.Hosts layer) :
    (Reader.sequence r).cost = 1 + r.blockCost := by
  have hhandback : r.handback = none := h.toGoing.handback
  simp [Reader.cost, hhandback, handbackCost]

/-- A production inside which no block is open pays for the block that may come. -/
theorem blockCost_eq {r : SequenceReader}
    (h : ∀ part rest, r.active = some (part, rest) → part.isBlock = false) :
    r.blockCost = blockReserve r.remaining := by
  cases hactive : r.active with
  | none => simp [blockCost, hactive]
  | some active =>
    obtain ⟨part, rest⟩ := active
    simp [blockCost, hactive, h part rest hactive]

/-- No part comes after a block. -/
theorem Sound.rest_of_isBlock {r : SequenceReader} (h : r.Sound) {part : Part} {rest : List Part}
    (hrest : part :: rest <:+ r.remaining) (hblock : part.isBlock) : rest = [] := by
  obtain ⟨passed, hparts, _⟩ := h.order
  obtain ⟨skipped, hskipped⟩ := hrest
  cases rest with
  | nil => rfl
  | cons next later =>
    have hafter : Production.parts r.kind = passed ++ skipped ++ [part] ++ next :: later := by
      simp [hparts, ← hskipped]
    have hbefore := Production.earlier_of_parts hafter
      (show part ∈ passed ++ skipped ++ [part] by simp)
    rw [hblock] at hbefore
    exact absurd hbefore.1 (by decide)

@[simp]
theorem pushExtras_nil (r : SequenceReader) : r.pushExtras [] = r := by
  simp [pushExtras]

/-- A leaf is delivered alone. -/
theorem onDelivery_leaf {r : SequenceReader} {layer : Layer} (h : r.Hosts layer)
    (hlayer : layer.isLeaf) (token : Option Tree) :
    Yields (r.onDelivery { token })
      (Fits (r.text ++ Tree.textOfTokens token.toList) (11 + r.blockCost)) := by
  have hactive (part : Part) (rest : List Part) (heq : r.active = some (part, rest)) :
      part :: rest <:+ r.remaining ∧ r.requirementMet part :=
    ⟨(h.active part rest heq).1, (h.active part rest heq).2.1⟩
  have hreserve : r.blockCost = blockReserve r.remaining := by
    refine blockCost_eq fun part rest heq => ?_
    rw [← Bool.not_eq_true]
    intro hblock
    obtain ⟨mode, rfl⟩ := (h.active part rest heq).2.2.2 hblock
    cases hlayer
  have htoken := onLeafToken_yields h.toGoing hactive token (Nat.le_refl _)
  rw [onDelivery, pushExtras_nil, hreserve]
  refine htoken.bind fun first hfirst => ?_
  refine yields_pure.2 (hfirst.of_eq ?_ ?_) <;> simp [Receipt.map, onLine?]

/-- What a state other than a leaf delivers fills the part that it was opened for. -/
theorem onDelivery_inner {r : SequenceReader} {layer : Layer} {d : Delivery} (h : r.Hosts layer)
    (hlayer : ¬ layer.isLeaf) (hd : d.From layer) :
    Yields (r.onDelivery d)
      (Fits (r.text ++ d.text) (1 + r.blockCost + handbackCost d.handback)) := by
  have hgoing := h.toGoing.pushExtras d.leading
  cases hactive : r.active with
  | none => exact absurd (h.trivia hactive) hlayer
  | some active =>
    obtain ⟨part, rest⟩ := active
    obtain ⟨hrest, hmet, hleaf, hblock⟩ := h.active part rest hactive
    have hshape : part.shape.isLeaf = false := by
      rw [← Bool.not_eq_true]
      exact fun hisLeaf => hlayer (hleaf hisLeaf)
    have hmet' : ({ r with active := none }.pushExtras d.leading).requirementMet part :=
      requirementMet_append hmet _
    rw [onDelivery, hactive]
    refine (onInnerToken_yields hgoing hrest hmet' hshape d.token).bind fun first hfirst => ?_
    obtain ⟨hopened, hstate, htext, hremaining, hplaced⟩ := hfirst
    have hreserve : blockReserve (first.state.pushExtras d.trailing).remaining ≤ r.blockCost := by
      cases hisBlock : part.isBlock with
      | false =>
        have hcost : r.blockCost = blockReserve r.remaining := blockCost_eq fun _ _ heq => by
          rw [hactive] at heq
          cases heq
          exact hisBlock
        rw [hcost]
        exact blockReserve_le_of_suffix hremaining
      | true =>
        obtain ⟨mode, hmode⟩ := hblock hisBlock
        obtain ⟨_, _, kind, form, htoken⟩ := hd.block mode hmode
        have hnode : ∀ t ∈ d.token, (t.isTrivia || t.isInvalid) = false := by
          rw [htoken]
          rintro _ ⟨⟩
          rfl
        have hempty : (first.state.pushExtras d.trailing).remaining = [] :=
          (hplaced hnode).trans (h.rest_of_isBlock hrest hisBlock)
        rw [hempty]
        exact Nat.zero_le _
    refine (afterToken_yields (hstate.pushExtras d.trailing) hd.exclusive
      (Nat.add_le_add_right (Nat.add_le_add_left hreserve 1) _)).bind fun second hsecond => ?_
    have hall : (first.state.pushExtras d.trailing).text ++ textHandedOn d.handback d.line
        = r.text ++ d.text := by
      rw [text_pushExtras _ _ hstate, htext, text_pushExtras _ _ h.toGoing]
      have hsame : ({ r with active := none } : SequenceReader).text = r.text := rfl
      simp [hsame, Delivery.text, String.append_assoc]
    rw [hall] at hsecond
    exact yields_pure.2 (hsecond.of_eq rfl (by simp [Receipt.map, hopened]))

/-- A production takes every delivery of a state that it hosts. -/
theorem onDelivery_yields {r : SequenceReader} {layer : Layer} {d : Delivery} (h : r.Hosts layer)
    (hd : d.From layer) :
    Yields (r.onDelivery d)
      (Fits (r.text ++ d.text) ((Reader.sequence r).cost + d.credit layer)) := by
  rw [h.cost_eq, Delivery.credit]
  by_cases hleaf : layer.isLeaf
  · obtain ⟨leading, token, trailing, handback, line⟩ := d
    obtain ⟨rfl, rfl, rfl, rfl⟩ := hd.leaf hleaf
    have htext : ({ token } : Delivery).text = Tree.textOfTokens token.toList := by
      simp [Delivery.text]
    rw [htext, if_pos hleaf]
    exact (onDelivery_leaf h hleaf token).mono fun receipt hreceipt => hreceipt.mono (by omega)
  · rw [if_neg hleaf]
    exact onDelivery_inner h hleaf hd

/-- No production has a place for a further branch. -/
theorem elseBranch_notMem_parts (kind : NodeKind) :
    Slot.elseBranch ∉ (Production.parts kind).map Part.slot := by
  cases kind <;> decide

/-- A production delivers its text and what it hands on. -/
theorem finish_eq {r : SequenceReader} (h : r.Sound) :
    r.finish.From .sequence ∧ r.finish.text = r.text ∧ r.finish.handback = r.handback := by
  have hroles (role : Role) (hrole : role ∈ Form.roles (Form.splitTrailing r.form).1) :
      role ∈ Form.roles r.form := by
    rw [← Form.append_extras_of_splitTrailing r.form, Form.roles_append]
    exact List.mem_append_left _ hrole
  refine ⟨⟨h.hands.exclusive, nofun, nofun, fun _ => ⟨rfl, r.kind, _, rfl, ?_, ?_⟩, nofun,
    False.elim⟩, ?_, rfl⟩
  · exact fun hitem => h.items (hroles _ hitem)
  · intro hrole
    obtain ⟨passed, hparts, hsublist⟩ := h.order
    have hslot : Slot.elseBranch ∈ Form.slots r.form := by
      obtain ⟨entry, hentry, hkind⟩ := List.mem_map.1 (hroles _ hrole)
      exact List.mem_filterMap.2 ⟨entry, hentry, by simp [hkind]⟩
    refine elseBranch_notMem_parts r.kind ?_
    rw [hparts, List.map_append]
    exact List.mem_append_left _ (hsublist.subset hslot)
  · simp [finish, Delivery.text, SequenceReader.text]

end SequenceReader

end ScriptTree
