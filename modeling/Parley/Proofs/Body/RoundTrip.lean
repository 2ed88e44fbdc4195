import Parley.Proofs.Body.Acceptance
import Parley.Proofs.Body.Numbering

/-!
Reading what is written of a body that has been read.
-/
namespace Parley.Body

/-- The script of a body that has been read is read again as the same body, if what is in it can be
written and no block is opened behind a reply of the same body. -/
theorem script_reads_back {dialogue text : String} {b : Body} {uses : List PointerUse}
    (read : ofText dialogue standardCommands text = .ok (b, uses)) (writable : b.Meets Law.writable)
    (first : ∀ tokens, Tokenizer.readText text = .ok tokens →
      (Reading.start 1).BlocksFirst dialogue standardCommands (Item.ofTokens tokens)) :
    ∃ c again, ofText dialogue standardCommands b.toScript = .ok (c, again) ∧ b.Same c ∧
      c.toScript = b.toScript := by
  obtain ⟨tokens, cut, read⟩ := bind_eq_ok_iff.mp read
  have accepted : b.Meets (Law.accepted dialogue) :=
    meets_of_ofTokens (accepted_kept dialogue uses) (Tokenizer.fit_of_readText cut) read
  have scripted : b.Meets (Law.scripted dialogue) :=
    b.meets_of_both (scripted_follows dialogue) accepted writable
  obtain ⟨again, same⟩ := ofText_toScript scripted (counts_of_ofTokens read (first tokens cut))
  exact ⟨b.settled, again, same, b.same_settled (fun _ weighs => weighs) scripted,
    b.toScript_settled (fun _ weighs => weighs) scripted⟩

theorem script_of_blocks_reads_back : ∃ text b uses,
    ofText "d" standardCommands text = .ok (b, uses) ∧ b.Meets Law.writable ∧
      (∃ c again, ofText "d" standardCommands b.toScript = .ok (c, again) ∧ b.Same c ∧
        c.toScript = b.toScript) ∧
      b.toScript = "<<if $age > 1>>\nHi $name!\n<<endif>>\n[[Yes|Next|<<set $a = 2.5>>]]" := by
  let text := "<<if $age>1>> Hi $name! <<endif>>\n[[Yes|Next|<<set $a=2.50>>]]"
  have accepted : (ofText "d" standardCommands text).toOption.any (fun found =>
      decide (found.1.Meets Law.writable) && found.1.toScript =
        "<<if $age > 1>>\nHi $name!\n<<endif>>\n[[Yes|Next|<<set $a = 2.5>>]]") = true := by
    decide +kernel
  have first : (Tokenizer.readText text).toOption.all (fun tokens =>
      decide ((Reading.start 1).BlocksFirst "d" standardCommands (Item.ofTokens tokens))) =
          true := by
    decide +kernel
  obtain ⟨⟨b, uses⟩, found, both⟩ := (Option.any_eq_true _ _).mp accepted
  obtain ⟨writable, script⟩ := Bool.and_eq_true_iff.mp both
  have read := toOption_eq_some_iff.mp found
  have writable : b.Meets Law.writable := of_decide_eq_true writable
  have again := script_reads_back read writable fun tokens cut =>
    of_decide_eq_true ((Option.all_eq_true _ _).mp first tokens (toOption_eq_some_iff.mpr cut))
  exact ⟨text, b, uses, read, writable, again, of_decide_eq_true script⟩

end Parley.Body
