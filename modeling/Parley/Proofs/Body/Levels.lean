import Parley.Proofs.Body.Blocks
import Parley.Proofs.Body.Openings
import Parley.Proofs.Body.Reading

/-!
The bodies that a reading is in the middle of. From the outermost on they are the bodies around the
place that has been reached, each with the clauses of its open block that are done, and the body
there. An item does little to them, and this is told once for all that is shown of replies by going
through a script.
-/
namespace Parley

namespace Body

/-- Whether two bodies have the same blocks and replies. -/
def Alike (b c : Body) : Prop := c.blocks = b.blocks ∧ c.replies = b.replies

theorem alike_refl (b : Body) : b.Alike b := ⟨rfl, rfl⟩

theorem alike_trim (b : Body) : b.Alike b.trim := ⟨blocks_trim b, rfl⟩

theorem alike_addText (b : Body) (t : Template) : b.Alike (b.addText t) := ⟨blocks_addText b t, rfl⟩

theorem alike_addCommand (b : Body) {c : Command} (bare : c.bodies = []) :
    b.Alike (b.addCommand c) := by
  constructor
  · rw [blocks_addCommand, bare, List.append_nil]
  · rfl

theorem Alike.offers {b c : Body} (alike : b.Alike c) : c.offers = b.offers := by
  rw [offers_eq, offers_eq, alike.1, alike.2]

/-- The bodies of the clauses of a block that are done. -/
def Block.bodies : Block → List Body
  | .choice done _ => done.map (·.body)
  | .random done _ => done.map (·.body)

/-- The bodies around the one being read, the outermost in front, each with the clauses of its open
block that are done. -/
def levelsOfFrames : List Frame → List Body
  | [] => []
  | f :: rest => levelsOfFrames rest ++ f.outer :: f.block.bodies

def Reading.levels (s : Reading) : List Body := levelsOfFrames s.frames ++ [s.body]

/-- How an item, which may open a reply, changes the bodies that are being read and the number of
the next reply. -/
inductive Shifts (dialogue : String) (next : Nat) :
    List Body → Option Enclosed → List Body → Nat → Prop
  | stays {front : List Body} {b c : Body} (alike : b.Alike c) :
      Shifts dialogue next (front ++ [b]) none (front ++ [c]) next
  | opens {front : List Body} {b c : Body} (alike : b.Alike c) :
      Shifts dialogue next (front ++ [b]) none (front ++ [c, .empty]) next
  | closes {front done : List Body} {outer whole b c : Body} (alike : b.Alike c)
      (blocks : whole.blocks = outer.blocks ++ (done ++ [c]))
      (replies : whole.replies = outer.replies) :
      Shifts dialogue next (front ++ outer :: (done ++ [b])) none (front ++ [whole]) next
  | reply {front : List Body} {b : Body} {e : Enclosed} {r : Reply} {use : PointerUse}
      (read : replyOf dialogue next e = .ok (r, use)) :
      Shifts dialogue next (front ++ [b]) (some e) (front ++ [b.addReply r]) (next + 1)

namespace Reading

variable {dialogue : String} {allowed : List String} {s s' : Reading} {item : Item}

theorem shifts_withCommand (s : Reading) {c : Command} (bare : c.bodies = []) :
    Shifts dialogue s.nextReply s.levels none (s.withCommand c).levels s.nextReply :=
  .stays (alike_addCommand s.body bare)

theorem shifts_enter (s : Reading) {opener : Position} {block : Block} (none : block.bodies = []) :
    Shifts dialogue s.nextReply s.levels .none (s.enter opener block).levels s.nextReply := by
  have levels : (s.enter opener block).levels = levelsOfFrames s.frames ++ [s.body, .empty] := by
    simp [Reading.levels, Reading.enter, levelsOfFrames, none]
  rw [levels]
  exact .opens (alike_refl s.body)

theorem shifts_reopen {f : Frame} {rest : List Frame} (inside : s.frames = f :: rest)
    {block : Block} (bodies : block.bodies = f.block.bodies ++ [s.body.trim]) :
    Shifts dialogue s.nextReply s.levels none (s.reopen f rest block).levels s.nextReply := by
  have before : s.levels = (levelsOfFrames rest ++ f.outer :: f.block.bodies) ++ [s.body] := by
    rw [Reading.levels, inside, levelsOfFrames]
  have behind : (s.reopen f rest block).levels =
      (levelsOfFrames rest ++ f.outer :: f.block.bodies) ++ [s.body.trim, .empty] := by
    simp [Reading.levels, Reading.reopen, levelsOfFrames, bodies]
  rw [before, behind]
  exact .opens (alike_trim s.body)

theorem shifts_close {f : Frame} {rest : List Frame} (inside : s.frames = f :: rest)
    {c : Command} (bodies : c.bodies = f.block.bodies ++ [s.body.trim]) :
    Shifts dialogue s.nextReply s.levels none (s.close f rest c).levels s.nextReply := by
  have before : s.levels = levelsOfFrames rest ++ f.outer :: (f.block.bodies ++ [s.body]) := by
    simp [Reading.levels, inside, levelsOfFrames]
  rw [before]
  have blocks : (f.outer.addCommand c).blocks =
      f.outer.blocks ++ (f.block.bodies ++ [s.body.trim]) := by rw [blocks_addCommand, bodies]
  exact .closes (alike_trim s.body) blocks rfl

theorem shifts_of_takes (taken : Takes dialogue allowed s item s') :
    Shifts dialogue s.nextReply s.levels item.opening s'.levels s'.nextReply := by
  cases taken with
  | text _ =>
    unfold Reading.withText
    split
    · exact .stays (alike_addText s.body _)
    · exact .stays (alike_refl s.body)
  | set _ _ _ _ => exact s.shifts_withCommand rfl
  | action _ _ _ _ _ => exact s.shifts_withCommand rfl
  | input _ _ _ _ _ => exact s.shifts_withCommand rfl
  | openChoice _ _ _ => exact s.shifts_enter rfl
  | openRandom _ _ _ _ => exact s.shifts_enter rfl
  | nextChoice _ inside block _ => exact shifts_reopen inside (by simp [Block.bodies, block])
  | otherwise _ inside block _ => exact shifts_reopen inside (by simp [Block.bodies, block])
  | nextRandom _ inside block _ _ => exact shifts_reopen inside (by simp [Block.bodies, block])
  | closeChoice _ inside block _ =>
    exact shifts_close inside (by simp [Block.bodies, Command.bodies, block])
  | closeOtherwise _ inside block _ =>
    exact shifts_close inside (by simp [Block.bodies, Command.bodies, block])
  | closeRandom _ inside block _ =>
    exact shifts_close inside (by simp [Block.bodies, Command.bodies, block])
  | reply read _ => exact .reply read

end Reading

variable {dialogue : String} {allowed : List String}
  (inv : List Enclosed → List Body → Nat → Prop)

/-- What every item keeps true of the replies that have been opened, of the bodies being read and of
the number of the next reply stays true. -/
theorem Reading.holds_of_fold
    (step : ∀ {es levels levels' next next' opened}, inv es levels next →
      Shifts dialogue next levels opened levels' next' → inv (es ++ opened.toList) levels' next')
    {items : List Item} {s s' : Reading} {es : List Enclosed} (start : inv es s.levels s.nextReply)
    (run : items.foldlM (Reading.step dialogue allowed) s = .ok s') :
    inv (es ++ items.filterMap Item.opening) s'.levels s'.nextReply := by
  induction items generalizing s es with
  | nil =>
    cases run
    simpa using start
  | cons item rest ih =>
    obtain ⟨m, taken, later⟩ := foldlM_cons_eq_ok_iff.mp run
    have all := ih (step start (shifts_of_takes (takes_of_step taken))) later
    have split : item.opening.toList ++ rest.filterMap Item.opening =
        (item :: rest).filterMap Item.opening := by
      cases opened : item.opening <;> simp [opened]
    rwa [List.append_assoc, split] at all

/-- What is true at the start of a script and kept by every item is true of the body in the end. -/
theorem holds_of_ofTokens
    (start : inv [] [.empty] 1)
    (step : ∀ {es levels levels' next next' opened}, inv es levels next →
      Shifts dialogue next levels opened levels' next' → inv (es ++ opened.toList) levels' next')
    {tokens : List Token} {b : Body} {uses : List PointerUse}
    (read : ofTokens dialogue allowed tokens = .ok (b, uses)) :
    ∃ next, inv ((Item.ofTokens tokens).filterMap Item.opening) [b] next := by
  obtain ⟨s, run, last⟩ := bind_eq_ok_iff.mp read
  have first : inv [] (Reading.start 1).levels (Reading.start 1).nextReply := start
  have holds := Reading.holds_of_fold inv step first run
  unfold Reading.finish at last
  split at last
  · rename_i closed
    cases last
    rw [Reading.levels, closed] at holds
    have trims : Shifts dialogue s.nextReply ([] ++ [s.body]) none ([] ++ [s.body.trim])
        s.nextReply := .stays (alike_trim s.body)
    exact ⟨s.nextReply, by simpa using step holds trims⟩
  · cases last

end Body
end Parley
