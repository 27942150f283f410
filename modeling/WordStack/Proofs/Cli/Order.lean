import Mathlib.Data.List.Nodup
import Mathlib.Data.List.Perm.Basic
import WordStack.Proofs.Cli.Group

/-! # The order of the options

Two groups of arguments that are about different things can change places (`Group.act_comm`), unless
one is a source file and the other hex text: hex text takes the place of a source file before it,
but a source file is refused once there is an input. So groups of different kinds mean the same in
every order with no source file behind hex text (`Group.SourceFirst`), and any other order is
refused (`Group.read_perm`). -/

namespace WordStack.Cli

theorem apply_comm {c c' : Choice} (hc : c.kind ≠ .source) (hc' : c'.kind ≠ .source)
    (hkind : c.kind ≠ c'.kind) (o : Options) :
    (o.apply c).toOption.bind (fun o => (o.apply c').toOption) =
      (o.apply c').toOption.bind (fun o => (o.apply c).toOption) := by
  cases c with
  | operand argument => exact absurd rfl hc
  | _ =>
    cases c' with
    | operand argument => exact absurd rfl hc'
    | _ => first | rfl | exact absurd rfl hkind

namespace Group

/-! ## Two groups -/

theorem act_source_comm {path : String} (hdash : path.toList.head? ≠ some '-') {g : Group}
    (hsource : g.kind ≠ .source) (hhex : g.kind ≠ .hex) (o : Options) :
    ((source path hdash).act o).bind g.act = (g.act o).bind (source path hdash).act := by
  cases hc : g.choice with
  | error refusal =>
    rw [act_of_refused hc o, Option.bind_none, Option.bind_eq_none_iff]
    exact fun after _ => act_of_refused hc after
  | ok c =>
    rw [← kind_of_choice hc] at hsource hhex
    obtain ⟨after, hafter, hinput, hset⟩ := apply_input hsource hhex o
    rw [act_of_choice hc, hafter, act_source, Except.toOption, Option.bind_some, act_source, hinput]
    split
    · rw [Option.bind_some, act_of_choice hc, hset]
      rfl
    · rfl

/-- **Two groups of different kinds can change places**, if they are not both an input. -/
theorem act_comm {g h : Group} (hkind : g.kind ≠ h.kind)
    (hinput : ¬ (g.kind = .source ∧ h.kind = .hex)) (hinput' : ¬ (h.kind = .source ∧ g.kind = .hex))
    (o : Options) : (g.act o).bind h.act = (h.act o).bind g.act := by
  by_cases hg : g.kind = .source
  · obtain ⟨path, hdash, rfl⟩ := eq_source_of_kind hg
    exact act_source_comm hdash (fun hh => hkind hh.symm) (fun hh => hinput ⟨rfl, hh⟩) o
  by_cases hh : h.kind = .source
  · obtain ⟨path, hdash, rfl⟩ := eq_source_of_kind hh
    exact (act_source_comm hdash hg (fun hg => hinput' ⟨rfl, hg⟩) o).symm
  cases hc : g.choice with
  | error refusal =>
    rw [act_of_refused hc o, Option.bind_none, eq_comm, Option.bind_eq_none_iff]
    exact fun after _ => act_of_refused hc after
  | ok c =>
    cases hc' : h.choice with
    | error refusal =>
      rw [act_of_refused hc' o, Option.bind_none, Option.bind_eq_none_iff]
      exact fun after _ => act_of_refused hc' after
    | ok c' =>
      have hk := kind_of_choice hc
      have hk' := kind_of_choice hc'
      rw [act_of_choice hc, act_of_choice hc', funext (act_of_choice hc),
        funext (act_of_choice hc')]
      exact apply_comm (hk ▸ hg) (hk' ▸ hh) (hk ▸ hk' ▸ hkind) o

/-! ## All orders -/

theorem settle_perm {gs gs' : List Group} (hperm : gs.Perm gs') (hkinds : (gs.map kind).Nodup)
    (hinput : ¬ (Kind.source ∈ gs.map kind ∧ Kind.hex ∈ gs.map kind)) (o : Option Options) :
    settle gs o = settle gs' o := by
  refine hperm.foldl_eq' (fun g hg h hh o => ?_) o
  by_cases hgh : g = h
  · rw [hgh]
  have hkind : g.kind ≠ h.kind := fun hk => hgh (List.inj_on_of_nodup_map hkinds hg hh hk)
  cases o with
  | none => rfl
  | some o =>
    refine act_comm hkind (fun hk => ?_) (fun hk => ?_) o
    · exact hinput ⟨hk.1 ▸ List.mem_map_of_mem hg, hk.2 ▸ List.mem_map_of_mem hh⟩
    · exact hinput ⟨hk.1 ▸ List.mem_map_of_mem hh, hk.2 ▸ List.mem_map_of_mem hg⟩

/-- **No source file comes after hex text.** -/
def SourceFirst (gs : List Group) : Prop := gs.Pairwise fun g h => g.kind = .hex → h.kind ≠ .source

instance (gs : List Group) : Decidable (SourceFirst gs) :=
  inferInstanceAs (Decidable (gs.Pairwise fun g h => g.kind = .hex → h.kind ≠ .source))

theorem settle_front {front rest : List Group} {g : Group}
    (hkinds : ((front ++ g :: rest).map kind).Nodup) (hg : g.kind = .source)
    (hfirst : SourceFirst (front ++ g :: rest)) (o : Option Options) :
    settle (front ++ g :: rest) o = settle (g :: (front ++ rest)) o := by
  have hhex : Kind.hex ∉ (front ++ [g]).map kind := by
    intro hmem
    obtain ⟨h, hh, hkind⟩ := List.mem_map.mp hmem
    rcases List.mem_append.mp hh with hh | hh
    · exact (List.pairwise_append.mp hfirst).2.2 h hh g List.mem_cons_self hkind hg
    · rw [List.mem_singleton.mp hh, hg] at hkind
      exact absurd hkind (by decide)
  have hnodup : ((front ++ [g]).map kind).Nodup := by
    refine hkinds.sublist (List.Sublist.map _ ?_)
    exact List.Sublist.append_left (List.singleton_sublist.mpr List.mem_cons_self) front
  have hperm : (front ++ [g]).Perm (g :: front) := List.perm_append_singleton g front
  rw [List.append_cons, settle_append, settle_perm hperm hnodup (fun h => hhex h.2),
    ← settle_append]
  rfl

/-- **Groups of different kinds mean the same in any two orders** with no source file after hex
text. -/
theorem settle_eq {gs gs' : List Group} (hperm : gs.Perm gs') (hkinds : (gs.map kind).Nodup)
    (h : SourceFirst gs) (h' : SourceFirst gs') (o : Option Options) :
    settle gs o = settle gs' o := by
  by_cases hsource : Kind.source ∈ gs.map kind
  · obtain ⟨g, hg, hkind⟩ := List.mem_map.mp hsource
    obtain ⟨front, rest, rfl⟩ := List.append_of_mem hg
    obtain ⟨front', rest', rfl⟩ := List.append_of_mem (hperm.mem_iff.mp hg)
    have hkinds' := (hperm.map kind).nodup_iff.mp hkinds
    rw [settle_front hkinds hkind h, settle_front hkinds' hkind h']
    -- With the source file in front of both, the others are in two orders of their own.
    have hothers : (g :: (front ++ rest)).Perm (g :: (front' ++ rest')) :=
      List.perm_middle.symm.trans (hperm.trans List.perm_middle)
    have hnodup := (List.perm_middle.map kind).nodup_iff.mp hkinds
    rw [List.map_cons, List.nodup_cons, hkind] at hnodup
    exact settle_perm hothers.cons_inv hnodup.2 (fun hs => hnodup.1 hs.1) _
  · exact settle_perm hperm hkinds (fun hs => hsource hs.1) o

/-- **A source file after hex text is refused**, whatever else there is. -/
theorem read_of_not_sourceFirst {gs : List Group} (hkinds : (gs.map kind).Nodup)
    (hchoice : ∀ g ∈ gs, ∃ c, g.choice = .ok c) (h : ¬ SourceFirst gs) :
    ∃ path hdash after, source path hdash ∈ gs ∧
      Options.read (written gs) = .error (.unexpected path) after := by
  obtain ⟨g, s, hsub, hhex, hsource⟩ :
      ∃ g s, [g, s].Sublist gs ∧ g.kind = .hex ∧ s.kind = .source := by
    rw [SourceFirst, List.pairwise_iff_forall_sublist] at h
    push Not at h
    obtain ⟨g, s, hsub, hhex, hs⟩ := h
    exact ⟨g, s, hsub, hhex, hs⟩
  obtain ⟨front, back, rfl, hg, hs⟩ := List.cons_sublist_iff.mp hsub
  obtain ⟨middle, rest, rfl⟩ := List.append_of_mem (List.singleton_sublist.mp hs)
  rw [← List.append_assoc] at hkinds hchoice ⊢
  obtain ⟨path, hdash, rfl⟩ := eq_source_of_kind hsource
  -- It is the only source file, so all before it are accepted, and leave an input.
  have hbefore : ∀ x ∈ front ++ middle, x.kind ≠ .source := by
    have hnodup := (List.perm_middle.map kind).nodup_iff.mp hkinds
    rw [List.map_cons, List.nodup_cons] at hnodup
    exact fun x hx hkind => hnodup.1 (List.mem_map.mpr ⟨x, List.mem_append_left rest hx, hkind⟩)
  obtain ⟨next, hnext, hinput⟩ :=
    settle_of_choice (fun x hx => hchoice x (List.mem_append_left _ hx)) hbefore {}
  have hsome : next.input ≠ none :=
    hinput (Or.inr (List.mem_map.mpr ⟨g, List.mem_append_left middle hg, hhex⟩))
  have hrefused : (source path hdash).choice.bind next.apply = .error (.unexpected path) := by
    show next.apply (.operand path) = _
    rw [apply_operand hdash, if_neg hsome]
  refine ⟨path, hdash, next, by simp, ?_⟩
  rw [Options.read, written_append, readArguments_append hnext, written_cons,
    readArguments_arguments, bind_take_of_error hrefused]

/-- **The order of the options**: if groups of different kinds are accepted in one order, then so
are they in each order with no source file after hex text, and the options are the same. In any
other order they are refused for the path of the source file among them. -/
theorem read_perm {gs gs' : List Group} {input : Input} {o : Options} (hperm : gs.Perm gs')
    (hkinds : (gs.map kind).Nodup) (h : Options.read (written gs) = .ok input o) :
    (SourceFirst gs' → Options.read (written gs') = .ok input o) ∧
      (¬ SourceFirst gs' → ∃ path hdash after, source path hdash ∈ gs' ∧
        Options.read (written gs') = .error (.unexpected path) after) := by
  obtain ⟨hsettle, hinput⟩ := read_written_iff.mp h
  have hchoice := choice_of_settle hsettle
  have hfirst : SourceFirst gs := by
    by_contra hnot
    obtain ⟨path, hdash, after, -, hrefused⟩ := read_of_not_sourceFirst hkinds hchoice hnot
    rw [h] at hrefused
    exact absurd hrefused (by simp)
  refine ⟨fun h' => ?_, fun h' => ?_⟩
  · rw [read_written_iff, ← settle_eq hperm hkinds hfirst h']
    exact ⟨hsettle, hinput⟩
  · exact read_of_not_sourceFirst ((hperm.map kind).nodup_iff.mp hkinds)
      (fun g hg => hchoice g (hperm.mem_iff.mpr hg)) h'

/-- The value of a flag may look like a flag, and hex text need not be next to the source file that
it takes the place of. -/
theorem read_perm_flag_as_value :
    Options.read ["-o", "-d", "a.asm", "--capacity", "8", "-x", "00"] =
      .ok (.hex "00")
        { input := some (.hex "00"), output := some "-d", config := { stackCapacity := 8 } } := by
  have hperm :
      [source "a.asm" (by decide), hex true "00", output true "-d", capacity "8"].Perm
        [output true "-d", source "a.asm" (by decide), capacity "8", hex true "00"] := by decide
  exact (read_perm hperm (by decide) rfl).1 (by decide)

/-- **Not every order is accepted**: hex text may stand behind a source file but not before it. -/
theorem not_read_perm : ¬ ∀ (gs gs' : List Group) (input : Input) (o : Options), gs.Perm gs' →
    (gs.map kind).Nodup → Options.read (written gs) = .ok input o →
      Options.read (written gs') = .ok input o := by
  intro h
  have haccepted := h [source "a.asm" (by decide), hex false "00"]
    [hex false "00", source "a.asm" (by decide)] (.hex "00") { input := some (.hex "00") }
    (by decide) (by decide) rfl
  have hrefused : Options.read ["--hex", "00", "a.asm"] =
      .error (.unexpected "a.asm") { input := some (.hex "00") } := rfl
  exact absurd (hrefused.symm.trans haccepted) (by simp)

end Group

end WordStack.Cli
