import Parley.Proofs.Body.Replies

/-!
The reading of a body without the places that it remembers. Places do not decide what is read, so a
body is read as it is read without them.
-/
namespace Parley.Body

/-- How far a body has been read: the body itself, the open blocks with the bodies around them, and
the number of the next reply. -/
structure Draft where
  body : Body
  frames : List (Block × Body)
  next : Nat

/-- A frame without its place. -/
def Frame.core (f : Frame) : Block × Body := (f.block, f.outer)

/-- A frame as if it stood at the start. -/
def Frame.ofCore (core : Block × Body) : Frame := ⟨.start, core.1, core.2⟩

@[simp] theorem cores_ofCore (cores : List (Block × Body)) :
    (cores.map Frame.ofCore).map Frame.core = cores := by
  rw [List.map_map]
  exact List.map_id cores

def Reading.draft (s : Reading) : Draft := ⟨s.body, s.frames.map Frame.core, s.nextReply⟩

/-- A reading that has got as far, as if all of it stood at the start. -/
def Draft.reading (d : Draft) : Reading := ⟨d.body, d.frames.map Frame.ofCore, d.next, []⟩

@[simp] theorem Draft.draft_reading (d : Draft) : d.reading.draft = d :=
  congrArg (Draft.mk d.body · d.next) (cores_ofCore d.frames)

theorem draft_inside (body outer : Body) (opener : Position) (block : Block)
    (frames : List (Block × Body)) (next : Nat) :
    (⟨body, ⟨opener, block, outer⟩ :: frames.map Frame.ofCore, next, []⟩ : Reading).draft =
      ⟨body, (block, outer) :: frames, next⟩ :=
  congrArg (fun cores => Draft.mk body ((block, outer) :: cores) next) (cores_ofCore frames)

namespace Reading

variable {dialogue : String} {allowed : List String} {s t m : Reading}

theorem allows_of_cores {frames others : List Frame} {body : Body} {next : Nat}
    {used used' : List PointerUse} (same : frames.map Frame.core = others.map Frame.core) :
    (⟨body, frames, next, used⟩ : Reading).allows allowed =
      (⟨body, others, next, used'⟩ : Reading).allows allowed := by
  cases frames with
  | nil =>
    rw [List.map_eq_nil_iff.mp same.symm]
    rfl
  | cons f rest =>
    obtain ⟨g, more, rfl, _, _⟩ := List.map_eq_cons_iff.mp same.symm
    rfl

/-- What a reading takes, one that has got as far takes in the same way. -/
theorem takes_of_draft {item : Item} (same : s.draft = t.draft)
    (taken : Takes dialogue allowed s item m) :
    ∃ n, Takes dialogue allowed t item n ∧ n.draft = m.draft := by
  obtain ⟨body, frames, next, used⟩ := s
  obtain ⟨body', others, next', used'⟩ := t
  obtain ⟨rfl, cores, rfl⟩ := Draft.mk.inj same
  -- what is allowed, and what a clause ends, is told from the cores of the frames alone
  have allows : (⟨body, frames, next, used⟩ : Reading).allows allowed =
      (⟨body, others, next, used'⟩ : Reading).allows allowed := allows_of_cores cores
  have inner {f : Frame} {rest : List Frame} (inside : frames = f :: rest) :
      ∃ g more, others = g :: more ∧ g.block = f.block ∧ g.outer = f.outer ∧
        more.map Frame.core = rest.map Frame.core := by
    rw [inside] at cores
    obtain ⟨g, more, second, core, later⟩ := List.map_eq_cons_iff.mp cores.symm
    obtain ⟨block, outer⟩ := Prod.mk.inj core
    exact ⟨g, more, second, block, outer, later⟩
  have reopened {p q : Position} {block : Block} {outer outer' : Body} {rest more : List Frame}
      (same : outer' = outer) (later : more.map Frame.core = rest.map Frame.core) :
      Draft.mk .empty (((⟨p, block, outer'⟩ : Frame) :: more).map Frame.core) next =
        ⟨.empty, ((⟨q, block, outer⟩ : Frame) :: rest).map Frame.core, next⟩ := by
    rw [List.map_cons, List.map_cons, later, same]
    rfl
  have closed {c : Command} {outer outer' : Body} {rest more : List Frame}
      (same : outer' = outer) (later : more.map Frame.core = rest.map Frame.core) :
      Draft.mk (outer'.addCommand c) (more.map Frame.core) next =
        ⟨outer.addCommand c, rest.map Frame.core, next⟩ := by
    rw [later, same]
  cases taken with
  | text fits =>
    refine ⟨_, .text fits, ?_⟩
    unfold withText
    split
    · exact congrArg (Draft.mk _ · next) cores.symm
    · exact same.symm
  | set named permitted first read =>
    exact ⟨_, .set named (allows ▸ permitted) first read, congrArg (Draft.mk _ · next) cores.symm⟩
  | action named permitted first attributes read =>
    exact ⟨_, .action named (allows ▸ permitted) first attributes read,
      congrArg (Draft.mk _ · next) cores.symm⟩
  | input named permitted first attributes read =>
    exact ⟨_, .input named (allows ▸ permitted) first attributes read,
      congrArg (Draft.mk _ · next) cores.symm⟩
  | openChoice named permitted read =>
    exact ⟨_, .openChoice named (allows ▸ permitted) read,
      congrArg (fun cores => Draft.mk _ (_ :: cores) next) cores.symm⟩
  | openRandom named permitted attributes read =>
    exact ⟨_, .openRandom named (allows ▸ permitted) attributes read,
      congrArg (fun cores => Draft.mk _ (_ :: cores) next) cores.symm⟩
  | nextChoice named inside block read =>
    obtain ⟨g, more, rfl, sameBlock, outer, later⟩ := inner inside
    exact ⟨_, .nextChoice named rfl (sameBlock.trans block) read, reopened outer later⟩
  | otherwise named inside block read =>
    obtain ⟨g, more, rfl, sameBlock, outer, later⟩ := inner inside
    exact ⟨_, .otherwise named rfl (sameBlock.trans block) read, reopened outer later⟩
  | closeChoice named inside block read =>
    obtain ⟨g, more, rfl, sameBlock, outer, later⟩ := inner inside
    exact ⟨_, .closeChoice named rfl (sameBlock.trans block) read, closed outer later⟩
  | closeOtherwise named inside block read =>
    obtain ⟨g, more, rfl, sameBlock, outer, later⟩ := inner inside
    exact ⟨_, .closeOtherwise named rfl (sameBlock.trans block) read, closed outer later⟩
  | nextRandom named inside block attributes read =>
    obtain ⟨g, more, rfl, sameBlock, outer, later⟩ := inner inside
    exact ⟨_, .nextRandom named rfl (sameBlock.trans block) attributes read, reopened outer later⟩
  | closeRandom named inside block attributes =>
    obtain ⟨g, more, rfl, sameBlock, outer, later⟩ := inner inside
    exact ⟨_, .closeRandom named rfl (sameBlock.trans block) attributes, closed outer later⟩
  | reply read single =>
    exact ⟨_, .reply read single, congrArg (Draft.mk _ · (next + 1)) cores.symm⟩

end Reading

/-- The reader of bodies. Text in front of the first reply counts, text behind it must be blank. -/
def bodyReader (dialogue : String) (allowed : List String) : Reader Draft where
  step d item := (d.reading.step dialogue allowed item).map Reading.draft
  say d t :=
    if d.body.replies.isEmpty then some { d with body := d.body.addText t }
    else if t.isBlank then some d else none
  step_text d tokens d' said := by
    have body : d.reading.body = d.body := rfl
    simp only [Reading.step, body]
    split at said
    · rename_i none
      cases said
      rw [if_pos none]
      have same := congrArg Draft.frames d.draft_reading
      exact congrArg (fun frames => Except.ok (Draft.mk _ frames d.next)) same
    · rename_i some
      split at said
      · rename_i blank
        cases said
        rw [if_neg some, if_pos blank]
        exact congrArg Except.ok d.draft_reading
      · cases said
  say_append d t u := by
    by_cases none : d.body.replies.isEmpty
    · have added : (d.body.addText t).replies.isEmpty := none
      have joined : d.body.addText (t ++ u) = (d.body.addText t).addText u :=
        congrArg (Body.mk · d.body.replies) (Segment.pushText_append d.body.segments t u)
      rw [if_pos none, if_pos none, Option.bind_some, if_pos added, joined]
    · rw [if_neg none, if_neg none, Template.isBlank_append]
      by_cases first : t.isBlank
      · rw [if_pos first, Option.bind_some, if_neg none, first, Bool.true_and]
      · rw [if_neg first, Option.bind_none, if_neg (by simp [first])]

variable {dialogue : String} {allowed : List String}

/-- What is read without places is read with them. -/
theorem exists_reading {items : List Item} {d d' : Draft} {s : Reading} (start : s.draft = d)
    (run : items.foldlM (bodyReader dialogue allowed).step d = .ok d') :
    ∃ s', items.foldlM (Reading.step dialogue allowed) s = .ok s' ∧ s'.draft = d' := by
  induction items generalizing d s with
  | nil =>
    cases run
    exact ⟨s, rfl, start⟩
  | cons item rest ih =>
    obtain ⟨mid, first, later⟩ := foldlM_cons_eq_ok_iff.mp run
    obtain ⟨m, taken, rfl⟩ := map_eq_ok_iff.mp first
    obtain ⟨n, takes, same⟩ :=
      Reading.takes_of_draft (d.draft_reading.trans start.symm) (Reading.takes_of_step taken)
    obtain ⟨s', behind, last⟩ := ih same later
    exact ⟨s', foldlM_cons_eq_ok_iff.mpr ⟨n, Reading.step_of_takes takes, behind⟩, last⟩

end Parley.Body
