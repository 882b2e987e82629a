import Mathlib.Tactic.Common

/-!
# Definite definition

Structured code that defines and reads names, its paths, and the names that every path has
defined. A path may leave a region anywhere, as a jump out of it does: out of a loop's body
to its next round or its end, out of a closure to its caller. A closure may be called at any
time after it has been made. Each read is preceded by a definition on every path exactly when
the names surely defined in front of it contain what it reads.
-/

namespace Gengo.Dataflow

open List

variable {Name : Type}

/-- Structured code. -/
inductive Region (Name : Type)
  | none
  | define (name : Name)
  | read (name : Name)
  | seq (first second : Region Name)
  | branch (taken skipped : Region Name)
  /-- The test, then the body and what is done after it, any number of times. -/
  | loop (test post body : Region Name)
  | closure (body : Region Name)

inductive Event (Name : Type)
  | define (name : Name)
  | read (name : Name)

/-- The paths through a region: what happens on them, the closures there are before and
after, and whether the region is left at its end. -/
inductive Path : Region Name → List (Region Name) → List (Event Name) → List (Region Name) →
    Bool → Prop
  | leave {region : Region Name} {closures : List (Region Name)} :
      Path region closures [] closures false
  | call {region body : Region Name} {before between after : List (Region Name)}
      {events called : List (Event Name)} {ended returned : Bool} :
      Path region before events between ended → body ∈ between →
        Path body between called after returned → Path region before (events ++ called) after ended
  | none {closures : List (Region Name)} : Path .none closures [] closures true
  | define {name : Name} {closures : List (Region Name)} :
      Path (.define name) closures [.define name] closures true
  | read {name : Name} {closures : List (Region Name)} :
      Path (.read name) closures [.read name] closures true
  | seq {first second : Region Name} {before between after : List (Region Name)}
      {front back : List (Event Name)} {ended : Bool} :
      Path first before front between true → Path second between back after ended →
        Path (.seq first second) before (front ++ back) after ended
  | seqLeft {first second : Region Name} {before after : List (Region Name)}
      {events : List (Event Name)} :
      Path first before events after false → Path (.seq first second) before events after false
  | taken {taken skipped : Region Name} {before after : List (Region Name)}
      {events : List (Event Name)} {ended : Bool} :
      Path taken before events after ended → Path (.branch taken skipped) before events after ended
  | skipped {taken skipped : Region Name} {before after : List (Region Name)}
      {events : List (Event Name)} {ended : Bool} :
      Path skipped before events after ended →
        Path (.branch taken skipped) before events after ended
  /-- The test ends the loop, or is left. -/
  | loopEnd {test post body : Region Name} {before after : List (Region Name)}
      {events : List (Event Name)} {ended : Bool} :
      Path test before events after ended → Path (.loop test post body) before events after ended
  /-- The body is left, and the loop with it; with its end for a `break`. -/
  | loopLeft {test post body : Region Name} {before between after : List (Region Name)}
      {front back : List (Event Name)} {ended : Bool} :
      Path test before front between true → Path body between back after false →
        Path (.loop test post body) before (front ++ back) after ended
  /-- A round whose end is left. -/
  | loopPostLeft {test post body : Region Name} {before first second after : List (Region Name)}
      {front middle back : List (Event Name)} {ended : Bool} :
      Path test before front first true → Path body first middle second ended →
        Path post second back after false →
          Path (.loop test post body) before (front ++ middle ++ back) after false
  /-- A round, whose body may be left for the next one. -/
  | loopRound {test post body : Region Name}
      {before first second third after : List (Region Name)}
      {front middle back rest : List (Event Name)} {continued ended : Bool} :
      Path test before front first true → Path body first middle second continued →
        Path post second back third true → Path (.loop test post body) third rest after ended →
          Path (.loop test post body) before (front ++ middle ++ back ++ rest) after ended
  | closure {body : Region Name} {closures : List (Region Name)} :
      Path (.closure body) closures [] (body :: closures) true

/-- The names that each path to the end of a region defines. -/
def Region.Defines (name : Name) : Region Name → Prop
  | .none | .read _ | .closure _ => False
  | .define other => other = name
  | .seq first second => first.Defines name ∨ second.Defines name
  | .branch taken skipped => taken.Defines name ∧ skipped.Defines name
  | .loop test _ _ => test.Defines name

/-- What is read has surely been defined, where the names of `known` have been so in front. -/
def Region.Definite : Region Name → (Name → Prop) → Prop
  | .none, _ | .define _, _ => True
  | .read name, known => known name
  | .seq first second, known =>
    first.Definite known ∧ second.Definite fun name => known name ∨ first.Defines name
  | .branch taken skipped, known => taken.Definite known ∧ skipped.Definite known
  | .loop test post body, known =>
    test.Definite known ∧ (body.Definite fun name => known name ∨ test.Defines name) ∧
      post.Definite fun name => known name ∨ test.Defines name
  | .closure body, known => body.Definite known

/-- Every read comes after a definition of the name, where those of `known` have one before. -/
def Preceded (known : Name → Prop) : List (Event Name) → Prop
  | [] => True
  | .define name :: rest => Preceded (fun other => known other ∨ other = name) rest
  | .read name :: rest => known name ∧ Preceded known rest

/-- The known names and those that the events define. -/
def Known (known : Name → Prop) (events : List (Event Name)) (name : Name) : Prop :=
  known name ∨ .define name ∈ events

variable {known : Name → Prop} {name : Name}

theorem known_cons_define {other : Name} {rest : List (Event Name)} :
    Known (fun other => known other ∨ other = name) rest other ↔
      Known known (.define name :: rest) other := by
  rw [Known, Known, mem_cons, Event.define.injEq, or_assoc]

theorem known_cons_read {other : Name} {rest : List (Event Name)} :
    Known known rest other ↔ Known known (.read name :: rest) other := by
  simp [Known]

theorem preceded_append {front back : List (Event Name)} :
    Preceded known (front ++ back) ↔ Preceded known front ∧ Preceded (Known known front) back := by
  induction front generalizing known with
  | nil =>
    have same : Known known ([] : List (Event Name)) = known := by
      funext name
      simp [Known]
    rw [nil_append, same]
    exact (and_iff_right trivial).symm
  | cons event rest ih =>
    cases event with
    | define name =>
      have same : Known (fun other => known other ∨ other = name) rest =
          Known known (.define name :: rest) := by
        funext other
        exact propext known_cons_define
      rw [cons_append, Preceded, ih, Preceded, same]
    | read name =>
      have same : Known known rest = Known known (.read name :: rest) := by
        funext other
        exact propext known_cons_read
      rw [cons_append, Preceded, ih, Preceded, same, and_assoc]

theorem known_append {front back : List (Event Name)} :
    Known (Known known front) back name ↔ Known known (front ++ back) name := by
  rw [Known, Known, Known, mem_append, or_assoc]

theorem Region.Definite.mono {region : Region Name} {more : Name → Prop}
    (le : ∀ name, known name → more name) (definite : region.Definite known) :
    region.Definite more := by
  induction region generalizing known more with
  | none => trivial
  | define name => trivial
  | read name => exact le name definite
  | seq first second firstHypothesis secondHypothesis =>
    exact ⟨firstHypothesis le definite.1,
      secondHypothesis (fun name => Or.imp_left (le name)) definite.2⟩
  | branch taken skipped takenHypothesis skippedHypothesis =>
    exact ⟨takenHypothesis le definite.1, skippedHypothesis le definite.2⟩
  | loop test post body testHypothesis postHypothesis bodyHypothesis =>
    exact ⟨testHypothesis le definite.1,
      bodyHypothesis (fun name => Or.imp_left (le name)) definite.2.1,
      postHypothesis (fun name => Or.imp_left (le name)) definite.2.2⟩
  | closure body bodyHypothesis => exact bodyHypothesis le definite

/-- What a part of a path keeps: its reads are preceded, the closures stay definite, and at the
end of the region what this defines is known. -/
structure Kept (region : Region Name) (known : Name → Prop) (events : List (Event Name))
    (closures : List (Region Name)) (ended : Bool) : Prop where
  preceded : Preceded known events
  closures : ∀ body ∈ closures, body.Definite (Known known events)
  defined : ended → ∀ name, region.Defines name → Known known events name

theorem Kept.after {region next : Region Name} {known : Name → Prop}
    {front back : List (Event Name)} {closures : List (Region Name)} {ended last : Bool}
    (preceded : Preceded known front) (kept : Kept next (Known known front) back closures last)
    (defined : ended → ∀ name, region.Defines name → Known (Known known front) back name) :
    Kept region known (front ++ back) closures ended where
  preceded := preceded_append.mpr ⟨preceded, kept.preceded⟩
  closures body listed := (kept.closures body listed).mono fun _ => known_append.mp
  defined isEnd name defines := known_append.mp (defined isEnd name defines)

theorem Path.kept {region : Region Name} {before after : List (Region Name)}
    {events : List (Event Name)} {ended : Bool} (path : Path region before events after ended)
    {known : Name → Prop} (definite : region.Definite known)
    (closures : ∀ body ∈ before, body.Definite known) :
    Kept region known events after ended := by
  induction path generalizing known with
  | leave =>
    exact ⟨trivial, fun body listed => (closures body listed).mono fun _ => .inl, nofun⟩
  | call _ listed _ pathHypothesis bodyHypothesis =>
    have kept := pathHypothesis definite closures
    refine Kept.after kept.preceded (bodyHypothesis (kept.closures _ listed) kept.closures) ?_
    exact fun isEnd name defines => .inl (kept.defined isEnd name defines)
  | none =>
    exact ⟨trivial, fun body listed => (closures body listed).mono fun _ => .inl,
      fun _ _ => False.elim⟩
  | define =>
    refine ⟨trivial, fun body listed => (closures body listed).mono fun _ => .inl, ?_⟩
    rintro - name rfl
    exact .inr mem_cons_self
  | read =>
    exact ⟨⟨definite, trivial⟩, fun body listed => (closures body listed).mono fun _ => .inl,
      fun _ _ => False.elim⟩
  | seq _ _ firstHypothesis secondHypothesis =>
    have first := firstHypothesis definite.1 closures
    have second := secondHypothesis
      (definite.2.mono fun name => Or.rec .inl (first.defined rfl name)) first.closures
    refine Kept.after first.preceded second fun isEnd name defines => ?_
    rcases defines with inFirst | inSecond
    · exact .inl (first.defined rfl name inFirst)
    · exact second.defined isEnd name inSecond
  | seqLeft _ firstHypothesis =>
    have first := firstHypothesis definite.1 closures
    exact ⟨first.preceded, first.closures, nofun⟩
  | taken _ takenHypothesis =>
    have taken := takenHypothesis definite.1 closures
    exact ⟨taken.preceded, taken.closures,
      fun isEnd name defines => taken.defined isEnd name defines.1⟩
  | skipped _ skippedHypothesis =>
    have skipped := skippedHypothesis definite.2 closures
    exact ⟨skipped.preceded, skipped.closures,
      fun isEnd name defines => skipped.defined isEnd name defines.2⟩
  | loopEnd _ testHypothesis =>
    have test := testHypothesis definite.1 closures
    exact ⟨test.preceded, test.closures, test.defined⟩
  | loopLeft _ _ testHypothesis bodyHypothesis =>
    have test := testHypothesis definite.1 closures
    have body := bodyHypothesis
      (definite.2.1.mono fun name => Or.rec .inl (test.defined rfl name)) test.closures
    exact Kept.after test.preceded body fun _ name defines =>
      .inl (test.defined rfl name defines)
  | loopPostLeft _ _ _ testHypothesis bodyHypothesis postHypothesis =>
    have test := testHypothesis definite.1 closures
    have body := bodyHypothesis
      (definite.2.1.mono fun name => Or.rec .inl (test.defined rfl name)) test.closures
    have round := Kept.after test.preceded body body.defined
    have post := postHypothesis (definite.2.2.mono fun name => Or.rec .inl fun defines =>
      known_append.mp (.inl (test.defined rfl name defines))) round.closures
    exact Kept.after round.preceded post nofun
  | loopRound _ _ _ _ testHypothesis bodyHypothesis postHypothesis restHypothesis =>
    have test := testHypothesis definite.1 closures
    have body := bodyHypothesis
      (definite.2.1.mono fun name => Or.rec .inl (test.defined rfl name)) test.closures
    have round := Kept.after test.preceded body body.defined
    have post := postHypothesis (definite.2.2.mono fun name => Or.rec .inl fun defines =>
      known_append.mp (.inl (test.defined rfl name defines))) round.closures
    have whole := Kept.after round.preceded post post.defined
    -- The next round starts with more names known than this one did.
    have rest := restHypothesis (definite.mono fun _ => .inl) whole.closures
    exact Kept.after whole.preceded rest rest.defined
  | closure =>
    refine ⟨trivial, forall_mem_cons.mpr ⟨definite.mono fun _ => .inl, ?_⟩, fun _ _ => False.elim⟩
    exact fun body listed => (closures body listed).mono fun _ => .inl

/-- A name is read that no event before has defined. -/
def ReadsFirst (name : Name) : List (Event Name) → Prop
  | [] => False
  | .define other :: rest => other ≠ name ∧ ReadsFirst name rest
  | .read other :: rest => other = name ∨ ReadsFirst name rest

theorem readsFirst_append {name : Name} {front back : List (Event Name)}
    (avoids : .define name ∉ front) (reads : ReadsFirst name back) :
    ReadsFirst name (front ++ back) := by
  induction front with
  | nil => exact reads
  | cons event rest ih =>
    rw [mem_cons, not_or] at avoids
    cases event with
    | define other => exact ⟨fun same => avoids.1 (by rw [same]), ih avoids.2⟩
    | read other => exact .inr (ih avoids.2)

theorem ReadsFirst.append {name : Name} {front : List (Event Name)} (reads : ReadsFirst name front)
    (back : List (Event Name)) : ReadsFirst name (front ++ back) := by
  induction front with
  | nil => exact reads.elim
  | cons event rest ih =>
    cases event with
    | define other => exact ⟨reads.1, ih reads.2⟩
    | read other => exact reads.imp_right ih

theorem not_preceded_of_readsFirst {known : Name → Prop} {name : Name} (unknown : ¬known name)
    {events : List (Event Name)} (reads : ReadsFirst name events) : ¬Preceded known events := by
  induction events generalizing known with
  | nil => exact fun _ => reads
  | cons event rest ih =>
    cases event with
    | define other =>
      refine ih ?_ reads.2
      rintro (isKnown | same)
      · exact unknown isKnown
      · exact reads.1 same.symm
    | read other =>
      intro preceded
      rcases reads with same | later
      · exact unknown (same ▸ preceded.1)
      · exact ih unknown later preceded.2

theorem exists_avoiding_path {region : Region Name} {name : Name} (maybe : ¬region.Defines name)
    (closures : List (Region Name)) :
    ∃ events after, Path region closures events after true ∧ .define name ∉ events := by
  induction region generalizing closures with
  | none => exact ⟨[], closures, .none, not_mem_nil⟩
  | define other =>
    refine ⟨_, closures, .define, fun listed => maybe ?_⟩
    rw [mem_singleton, Event.define.injEq] at listed
    exact listed.symm
  | read other => exact ⟨_, closures, .read, by simp⟩
  | seq first second firstHypothesis secondHypothesis =>
    rw [Region.Defines, not_or] at maybe
    obtain ⟨front, between, firstPath, firstAvoids⟩ := firstHypothesis maybe.1 closures
    obtain ⟨back, after, secondPath, secondAvoids⟩ := secondHypothesis maybe.2 between
    refine ⟨front ++ back, after, .seq firstPath secondPath, ?_⟩
    rw [mem_append, not_or]
    exact ⟨firstAvoids, secondAvoids⟩
  | branch taken skipped takenHypothesis skippedHypothesis =>
    by_cases onTaken : taken.Defines name
    · obtain ⟨events, after, path, avoids⟩ :=
        skippedHypothesis (fun onSkipped => maybe ⟨onTaken, onSkipped⟩) closures
      exact ⟨events, after, .skipped path, avoids⟩
    · obtain ⟨events, after, path, avoids⟩ := takenHypothesis onTaken closures
      exact ⟨events, after, .taken path, avoids⟩
  | loop test post body testHypothesis =>
    obtain ⟨events, after, path, avoids⟩ := testHypothesis maybe closures
    exact ⟨events, after, .loopEnd path, avoids⟩
  | closure body => exact ⟨[], body :: closures, .closure, not_mem_nil⟩

/-- What is read without surely having been defined is read on some path without it. -/
theorem exists_reading_path {region : Region Name} {known : Name → Prop}
    (indefinite : ¬region.Definite known) :
    ∃ name, ¬known name ∧ ∀ closures, ∃ events after ended,
      Path region closures events after ended ∧ ReadsFirst name events := by
  induction region generalizing known with
  | none | define other => exact absurd trivial indefinite
  | read other =>
    exact ⟨other, indefinite, fun closures => ⟨_, closures, true, .read, .inl rfl⟩⟩
  | seq first second firstHypothesis secondHypothesis =>
    by_cases firstDefinite : first.Definite known
    · obtain ⟨name, unknown, paths⟩ :=
        secondHypothesis fun secondDefinite => indefinite ⟨firstDefinite, secondDefinite⟩
      rw [not_or] at unknown
      refine ⟨name, unknown.1, fun closures => ?_⟩
      obtain ⟨front, between, firstPath, avoids⟩ := exists_avoiding_path unknown.2 closures
      obtain ⟨back, after, ended, secondPath, reads⟩ := paths between
      exact ⟨front ++ back, after, ended, .seq firstPath secondPath, readsFirst_append avoids reads⟩
    · obtain ⟨name, unknown, paths⟩ := firstHypothesis firstDefinite
      refine ⟨name, unknown, fun closures => ?_⟩
      obtain ⟨front, between, ended, path, reads⟩ := paths closures
      cases ended with
      | false => exact ⟨front, between, false, .seqLeft path, reads⟩
      | true => exact ⟨front ++ [], between, false, .seq path .leave, reads.append []⟩
  | branch taken skipped takenHypothesis skippedHypothesis =>
    by_cases takenDefinite : taken.Definite known
    · obtain ⟨name, unknown, paths⟩ :=
        skippedHypothesis fun skippedDefinite => indefinite ⟨takenDefinite, skippedDefinite⟩
      refine ⟨name, unknown, fun closures => ?_⟩
      obtain ⟨events, after, ended, path, reads⟩ := paths closures
      exact ⟨events, after, ended, .skipped path, reads⟩
    · obtain ⟨name, unknown, paths⟩ := takenHypothesis takenDefinite
      refine ⟨name, unknown, fun closures => ?_⟩
      obtain ⟨events, after, ended, path, reads⟩ := paths closures
      exact ⟨events, after, ended, .taken path, reads⟩
  | loop test post body testHypothesis postHypothesis bodyHypothesis =>
    by_cases testDefinite : test.Definite known
    · by_cases bodyDefinite : body.Definite fun name => known name ∨ test.Defines name
      · obtain ⟨name, unknown, paths⟩ := postHypothesis fun postDefinite =>
          indefinite ⟨testDefinite, bodyDefinite, postDefinite⟩
        rw [not_or] at unknown
        refine ⟨name, unknown.1, fun closures => ?_⟩
        obtain ⟨front, between, testPath, avoids⟩ := exists_avoiding_path unknown.2 closures
        obtain ⟨back, after, ended, postPath, reads⟩ := paths between
        -- The body is left at once for the next round.
        have readsLate : ReadsFirst name (front ++ [] ++ back) := by
          rw [append_nil]
          exact readsFirst_append avoids reads
        cases ended with
        | false => exact ⟨_, after, false, .loopPostLeft testPath .leave postPath, readsLate⟩
        | true =>
          exact ⟨_, after, false, .loopRound testPath .leave postPath .leave, readsLate.append []⟩
      · obtain ⟨name, unknown, paths⟩ := bodyHypothesis bodyDefinite
        rw [not_or] at unknown
        refine ⟨name, unknown.1, fun closures => ?_⟩
        obtain ⟨front, between, testPath, avoids⟩ := exists_avoiding_path unknown.2 closures
        obtain ⟨back, after, ended, bodyPath, reads⟩ := paths between
        exact ⟨_, after, false, .loopPostLeft testPath bodyPath .leave,
          (readsFirst_append avoids reads).append []⟩
    · obtain ⟨name, unknown, paths⟩ := testHypothesis testDefinite
      refine ⟨name, unknown, fun closures => ?_⟩
      obtain ⟨events, after, ended, path, reads⟩ := paths closures
      exact ⟨events, after, ended, .loopEnd path, reads⟩
  | closure body bodyHypothesis =>
    obtain ⟨name, unknown, paths⟩ := bodyHypothesis indefinite
    refine ⟨name, unknown, fun closures => ?_⟩
    obtain ⟨events, after, ended, path, reads⟩ := paths (body :: closures)
    -- The closure is called as soon as it has been made.
    exact ⟨[] ++ events, after, true, .call .closure mem_cons_self path, reads⟩

/-- Reads are preceded by definitions on all paths exactly when they are definite. -/
theorem definite_iff {region : Region Name} :
    region.Definite (fun _ => False) ↔ ∀ events after ended, Path region [] events after ended →
      Preceded (fun _ => False) events := by
  constructor
  · intro definite events after ended path
    exact (path.kept definite nofun).preceded
  · intro preceded
    by_contra indefinite
    obtain ⟨name, unknown, paths⟩ := exists_reading_path indefinite
    obtain ⟨events, after, ended, path, reads⟩ := paths []
    exact not_preceded_of_readsFirst unknown reads (preceded events after ended path)

/-- What stands in front of a read defines its name. -/
theorem preceded_iff {known : Name → Prop} {events : List (Event Name)} :
    Preceded known events ↔ ∀ front name back, events = front ++ .read name :: back →
      Known known front name := by
  constructor
  · rintro preceded front name back rfl
    exact (preceded_append.mp preceded).2.1
  · intro defined
    induction events generalizing known with
    | nil => trivial
    | cons event rest ih =>
      cases event with
      | define other =>
        refine ih fun front name back restEq => ?_
        rw [known_cons_define]
        exact defined (.define other :: front) name back (by rw [restEq]; rfl)
      | read other =>
        constructor
        · have first := defined [] other rest rfl
          simpa [Known] using first
        · refine ih fun front name back restEq => ?_
          rw [known_cons_read]
          exact defined (.read other :: front) name back (by rw [restEq]; rfl)

end Gengo.Dataflow
