import DeepSpace.Slave

/-!
# `parse` of `master.c`

Two passes over the options, with one `getopt` for both of them.

* `whileGetopt_eq`: a loop over the options goes through all calls of `getopt`, up to its -1;
* `stays_of_not_mem`: which it keeps returning, where no element is `--`;
* `parse_eq`: so the second pass sees no option, and the table is as `malloc` left it;
* `loadImg_file`: its body would not fill `file` either.
-/

namespace DeepSpace.Master

open DeepSpace.Memory DeepSpace.TransmissionProtocol

/-! ## `getopt` -/

/-- Where `getopt` is: `nextchar` is the rest of an element of `argv`, `rest` the elements behind
it. -/
structure Getopt where
  nextchar : List UInt8
  rest : List CString

def Getopt.finish : Getopt := ⟨[], []⟩

def Getopt.size (s : Getopt) : Nat :=
  s.nextchar.length + (s.rest.map fun a => a.bytes.length + 1).sum

/-- Whether `c` is an option, and one with an argument. -/
def wants (c : UInt8) : List UInt8 → Option Bool
  | [] => none
  | x :: optstring =>
    if x = c ∧ c ≠ 58 then some (optstring.head? = some 58) else wants c optstring

/-- `-1`, or an option with `optarg`. -/
abbrev Call := Option (UInt8 × Option (List UInt8))

/-- The option `c` of an element that goes on with `cs`; 63 is returned for what is none. -/
def getoptLetter (optstring : List UInt8) (c : UInt8) (cs : List UInt8) (rest : List CString) :
    Call × Getopt :=
  match wants c optstring, cs, rest with
  | none, _, _ => (some (63, none), ⟨cs, rest⟩)
  | some false, _, _ => (some (c, none), ⟨cs, rest⟩)
  | some true, [], [] => (some (63, none), .finish)
  | some true, [], a :: rest => (some (c, some a.bytes), ⟨[], rest⟩)
  | some true, c' :: cs, _ => (some (c, some (c' :: cs)), ⟨[], rest⟩)

/-- `--` -/
def dashes : CString := ⟨[45, 45], by decide⟩

/-- One call: it stays at the last element, at an operand and at `-`, and goes past a `--`. -/
def getopt (optstring : List UInt8) (s : Getopt) : Call × Getopt :=
  match s.nextchar, s.rest with
  | c :: cs, rest => getoptLetter optstring c cs rest
  | [], [] => (none, .finish)
  | [], a :: rest =>
    match a.bytes with
    | 45 :: c :: cs =>
      if c = 45 ∧ cs = [] then (none, ⟨[], rest⟩) else getoptLetter optstring c cs rest
    | _ => (none, ⟨[], a :: rest⟩)

theorem getopt_end (optstring : List UInt8) : getopt optstring .finish = (none, .finish) := rfl

theorem getoptLetter_size (optstring : List UInt8) (c : UInt8) (cs : List UInt8)
    (rest : List CString) : (getoptLetter optstring c cs rest).2.size ≤ Getopt.size ⟨cs, rest⟩ := by
  unfold getoptLetter
  split
  · exact le_rfl
  · exact le_rfl
  · exact Nat.zero_le _
  · simp only [Getopt.size, List.map_cons, List.sum_cons]
    omega
  · simp only [Getopt.size]
    exact Nat.add_le_add_right (Nat.zero_le _) _

/-- A call that returns an option goes on in `argv`. -/
theorem getopt_size {optstring : List UInt8} {s s' : Getopt} {o : UInt8 × Option (List UInt8)}
    (h : getopt optstring s = (some o, s')) : s'.size < s.size := by
  have hletter : ∀ c cs rest, getoptLetter optstring c cs rest = (some o, s') →
      s'.size ≤ Getopt.size ⟨cs, rest⟩ := by
    intro c cs rest he
    have hle := getoptLetter_size optstring c cs rest
    rwa [he] at hle
  obtain ⟨nextchar, rest⟩ := s
  cases nextchar with
  | cons c cs =>
    have hle := hletter c cs rest h
    simp only [Getopt.size, List.length_cons] at hle ⊢
    omega
  | nil =>
    cases rest with
    | nil => cases h
    | cons a rest =>
      unfold getopt at h
      dsimp only at h
      split at h
      · next c cs ha =>
        split at h
        · cases h
        · have hle := hletter c cs rest h
          simp only [Getopt.size, List.map_cons, List.sum_cons, ha, List.length_cons,
            List.length_nil] at hle ⊢
          omega
      · cases h

theorem getoptLetter_rest (optstring : List UInt8) (c : UInt8) (cs : List UInt8)
    (rest : List CString) : (getoptLetter optstring c cs rest).2.rest ⊆ rest := by
  unfold getoptLetter
  split
  · exact List.Subset.refl _
  · exact List.Subset.refl _
  · exact List.nil_subset _
  · exact List.subset_cons_self _ _
  · exact List.Subset.refl _

theorem getopt_rest {optstring : List UInt8} {s s' : Getopt} {o : UInt8 × Option (List UInt8)}
    (h : getopt optstring s = (some o, s')) : s'.rest ⊆ s.rest := by
  have hletter : ∀ c cs rest, getoptLetter optstring c cs rest = (some o, s') →
      s'.rest ⊆ rest := by
    intro c cs rest he
    have hle := getoptLetter_rest optstring c cs rest
    rwa [he] at hle
  obtain ⟨nextchar, rest⟩ := s
  cases nextchar with
  | cons c cs => exact hletter c cs rest h
  | nil =>
    cases rest with
    | nil => cases h
    | cons a rest =>
      unfold getopt at h
      dsimp only at h
      split at h
      · split at h
        · cases h
        · exact List.subset_cons_of_subset a (hletter _ _ rest h)
      · cases h

/-- A -1 that is not for a `--` comes again. -/
theorem getopt_again {optstring : List UInt8} {s s' : Getopt} (hs : dashes ∉ s.rest)
    (h : getopt optstring s = (none, s')) : getopt optstring s' = (none, s') := by
  have hletter : ∀ c cs rest, getoptLetter optstring c cs rest ≠ (none, s') := by
    intro c cs rest he
    unfold getoptLetter at he
    split at he <;> cases he
  obtain ⟨nextchar, rest⟩ := s
  cases nextchar with
  | cons c cs => exact absurd h (hletter c cs rest)
  | nil =>
    cases rest with
    | nil =>
      cases h
      rfl
    | cons a rest =>
      unfold getopt at h
      dsimp only at h
      split at h
      · next c cs ha =>
        split at h
        · next hdash =>
          obtain ⟨rfl, rfl⟩ := hdash
          obtain ⟨bytes, hb⟩ := a
          obtain rfl : bytes = [45, 45] := ha
          exact absurd List.mem_cons_self hs
        · exact absurd h (hletter _ _ rest)
      · next hne =>
        cases h
        unfold getopt
        dsimp only
        split
        · next c cs ha => exact absurd ha (hne c cs)
        · rfl

/-- What the calls return up to the first -1. -/
def calls (optstring : List UInt8) (s : Getopt) : List (UInt8 × Option (List UInt8)) :=
  match _h : getopt optstring s with
  | (none, _) => []
  | (some o, s') => o :: calls optstring s'
termination_by s.size
decreasing_by exact getopt_size _h

/-- Where the first -1 leaves `getopt`. -/
def behind (optstring : List UInt8) (s : Getopt) : Getopt :=
  match _h : getopt optstring s with
  | (none, s') => s'
  | (some _, s') => behind optstring s'
termination_by s.size
decreasing_by exact getopt_size _h

/-- `while ((c = getopt (argc, argv, optstring)) != -1)`, with a body that may return from
`parse`. -/
def whileGetopt {β : Type} (optstring : List UInt8)
    (body : UInt8 → Option (List UInt8) → β → C (Option β)) (s : Getopt) (b : β) :
    C (Option (β × Getopt)) :=
  match _h : getopt optstring s with
  | (none, s') => .ok (some (b, s'))
  | (some (c, optarg), s') => do
    match ← body c optarg b with
    | none => return none
    | some b => whileGetopt optstring body s' b
termination_by s.size
decreasing_by exact getopt_size _h

/-! ## `parse` -/

/-- `"t:i:o:"` -/
def optstring : List UInt8 := [116, 58, 105, 58, 111, 58]

/-- An image: `name` is the block that it points to. -/
structure ImgT where
  name : List UInt8
  file : List UInt8
  size : Int
  deriving DecidableEq

structure OptT where
  tty : Option (List UInt8)
  outputDir : Option (List UInt8)
  imgNumber : Nat
  imgs : List ImgT

/-- `"/tmp/ttyS0"`, `"/tmp"` -/
def defaultOpt : OptT where
  tty := some [47, 116, 109, 112, 47, 116, 116, 121, 83, 48]
  outputDir := some [47, 116, 109, 112]
  imgNumber := 0
  imgs := []

def countOption (c : UInt8) (optarg : Option (List UInt8)) (p : OptT) : OptT :=
  if c = 116 then { p with tty := optarg }
  else if c = 111 then { p with outputDir := optarg }
  else if c = 105 then { p with imgNumber := p.imgNumber + 1 }
  else p

/-- What `parse` calls: the first word of an expansion, the files, and which of them `fopen`
opens. -/
structure World where
  wordexp : List UInt8 → Option CString
  files : FileSystem
  opens : List UInt8 → Bool

variable (w : World) (stale : Nat → UInt8) (staleImg : Nat → ImgT)

/-- `case 'i'` of the second pass; `none` where `parse` returns `NULL`. -/
def loadImg (path : List UInt8) (p : OptT) (i : Nat) : C (Option (OptT × Nat)) :=
  if p.imgs.length ≤ i then .error .outOfBounds
  else match w.wordexp path with
  | none => .ok none
  | some name =>
    match w.files name.bytes with
    | none => .ok none
    | some contents => do
      let size := contents.length
      let file := malloc size stale
      if ¬ w.opens name.bytes then .error .nullDereference
      -- into `name`, not into `file`
      let block ← memcpy (name.bytes ++ [0]) 0 contents
      return some ({ p with imgs := p.imgs.set i ⟨block, file, size⟩ }, i + 1)

def loadOption (c : UInt8) (optarg : Option (List UInt8)) : OptT × Nat → C (Option (OptT × Nat))
  | (p, i) =>
    if c = 105 then
      match optarg with
      | none => .error .nullDereference
      | some path => loadImg w stale path p i
    else .ok (some (p, i))

/-- `parse`, where `malloc` succeeds, of the arguments behind `argv[0]`; an image is read from what
the block of `malloc` holds as `staleImg` says. -/
def parse (args : List CString) : C (Option OptT) := do
  match ← whileGetopt optstring (fun c optarg p => .ok (some (countOption c optarg p))) ⟨[], args⟩
    defaultOpt with
  | none => return none
  | some (p, s) =>
    if p.imgNumber = 0 then return none
    let p := { p with imgs := (List.range p.imgNumber).map staleImg }
    match ← whileGetopt optstring (loadOption w stale) s (p, 0) with
    | none => return none
    | some ((p, _), _) => return some p

/-! ## What is asked for -/

/-- The arguments of the options `-i`. -/
def images (args : List CString) : List (List UInt8) :=
  (calls optstring ⟨[], args⟩).filterMap fun o => if o.1 = 105 then o.2 else none

/-- `getopt` keeps returning -1. -/
def Stays (args : List CString) : Prop :=
  (getopt optstring (behind optstring ⟨[], args⟩)).1 = none

/-- The image is the file of the path. -/
def Loaded (path : List UInt8) (img : ImgT) : Prop :=
  ∃ name contents, w.wordexp path = some name ∧ w.files name.bytes = some contents ∧
    cString img.name = name.bytes ∧ img.size = contents.length ∧ img.file = contents

/-- **Image loading**, whatever the blocks of `malloc` hold. -/
def Loads (args : List CString) : Prop :=
  ∀ stale staleImg, ∃ p, parse w stale staleImg args = .ok (some p) ∧
    p.imgNumber = (images args).length ∧
    ∀ (j : Nat) (path : List UInt8), (images args)[j]? = some path →
      ∃ img, p.imgs[j]? = some img ∧ Loaded w path img

/-! ## The two passes -/

theorem calls_none {optstring : List UInt8} {s s' : Getopt} (h : getopt optstring s = (none, s')) :
    calls optstring s = [] := by
  rw [calls]
  split
  · rfl
  · next heq => rw [h] at heq; cases heq

theorem calls_some {optstring : List UInt8} {s s' : Getopt} {o : UInt8 × Option (List UInt8)}
    (h : getopt optstring s = (some o, s')) : calls optstring s = o :: calls optstring s' := by
  rw [calls]
  split
  · next heq => rw [h] at heq; cases heq
  · next heq => rw [h] at heq; cases heq; rfl

theorem behind_none {optstring : List UInt8} {s s' : Getopt} (h : getopt optstring s = (none, s')) :
    behind optstring s = s' := by
  rw [behind]
  split
  · next heq => rw [h] at heq; cases heq; rfl
  · next heq => rw [h] at heq; cases heq

theorem behind_some {optstring : List UInt8} {s s' : Getopt} {o : UInt8 × Option (List UInt8)}
    (h : getopt optstring s = (some o, s')) : behind optstring s = behind optstring s' := by
  rw [behind]
  split
  · next heq => rw [h] at heq; cases heq
  · next heq => rw [h] at heq; cases heq; rfl

/-- `getopt` stays where it is, except behind a `--`. -/
theorem stays_of_not_mem {args : List CString} (h : dashes ∉ args) : Stays args := by
  have hstay : ∀ s : Getopt, dashes ∉ s.rest →
      (getopt optstring (behind optstring s)).1 = none := by
    intro s
    induction s using calls.induct optstring with
    | case1 s s' hs =>
      intro hd
      rw [behind_none hs, getopt_again hd hs]
    | case2 s o s' hs ih =>
      intro hd
      rw [behind_some hs]
      exact ih fun hm => hd (getopt_rest hs hm)
  exact hstay ⟨[], args⟩ h

/-- **A loop over the options** goes through all calls up to the first -1. -/
theorem whileGetopt_eq {β : Type} {optstring : List UInt8}
    {body : UInt8 → Option (List UInt8) → β → C (Option β)}
    {f : UInt8 → Option (List UInt8) → β → β} (hbody : ∀ c o b, body c o b = .ok (some (f c o b)))
    (s : Getopt) (b : β) :
    whileGetopt optstring body s b =
      .ok (some ((calls optstring s).foldl (fun b o => f o.1 o.2 b) b, behind optstring s)) := by
  induction s using calls.induct optstring generalizing b with
  | case1 s s' h =>
    rw [calls_none h, behind_none h, whileGetopt]
    split
    · next heq =>
      rw [h] at heq
      cases heq
      rfl
    · next heq => rw [h] at heq; cases heq
  | case2 s o s' h ih =>
    rw [calls_some h, behind_some h, List.foldl_cons, ← ih, whileGetopt]
    split
    · next heq => rw [h] at heq; cases heq
    · next heq =>
      rw [h] at heq
      cases heq
      rw [hbody]
      rfl

/-- Where there is no option there is nothing to go through. -/
theorem whileGetopt_none {β : Type} {optstring : List UInt8}
    {body : UInt8 → Option (List UInt8) → β → C (Option β)} {s : Getopt}
    (h : (getopt optstring s).1 = none) (b : β) :
    ∃ s', whileGetopt optstring body s b = .ok (some (b, s')) := by
  rw [whileGetopt]
  split
  · exact ⟨_, rfl⟩
  · next heq =>
    rw [heq] at h
    cases h

/-- What the first pass makes of the options. -/
def counted (args : List CString) : OptT :=
  (calls optstring ⟨[], args⟩).foldl (fun p o => countOption o.1 o.2 p) defaultOpt

/-- **The second pass** sees no option. -/
theorem parse_eq {args : List CString} (hend : Stays args) :
    parse w stale staleImg args =
      .ok (if (counted args).imgNumber = 0 then none else some { counted args with
        imgs := (List.range (counted args).imgNumber).map staleImg }) := by
  unfold parse
  rw [whileGetopt_eq fun c o p => rfl]
  change (if (counted args).imgNumber = 0 then _ else _) = _
  split
  · rfl
  · dsimp only
    obtain ⟨s, hs⟩ := @whileGetopt_none _ _ (loadOption w stale) _ hend ({ counted args with
      imgs := (List.range (counted args).imgNumber).map staleImg }, 0)
    unfold counted at hs ⊢
    rw [hs]
    rfl

/-- `-i` comes with an argument. -/
theorem getopt_image {s s' : Getopt} {o : Option (List UInt8)}
    (h : getopt optstring s = (some (105, o), s')) : o.isSome := by
  have hletter : ∀ c cs rest,
      getoptLetter optstring c cs rest = (some (105, o), s') → o.isSome := by
    intro c cs rest he
    unfold getoptLetter at he
    split at he
    · cases he
    · next hw =>
      cases he
      exact absurd hw (by decide)
    · cases he
    · cases he
      rfl
    · cases he
      rfl
  obtain ⟨nextchar, rest⟩ := s
  cases nextchar with
  | cons c cs => exact hletter c cs rest h
  | nil =>
    cases rest with
    | nil => cases h
    | cons a rest =>
      unfold getopt at h
      dsimp only at h
      split at h
      · split at h
        · cases h
        · exact hletter _ _ rest h
      · cases h

theorem countOption_imgNumber (c : UInt8) (o : Option (List UInt8)) (p : OptT) :
    (countOption c o p).imgNumber = p.imgNumber + if c = 105 then 1 else 0 := by
  unfold countOption
  by_cases ht : c = 116
  · rw [if_pos ht, ht]
    rfl
  · by_cases ho : c = 111
    · rw [if_neg ht, if_pos ho, ho]
      rfl
    · rw [if_neg ht, if_neg ho]
      split <;> rfl

/-- **The first pass** counts the images. -/
theorem counted_imgNumber (args : List CString) :
    (counted args).imgNumber = (images args).length := by
  have hcount : ∀ (s : Getopt) (p : OptT),
      ((calls optstring s).foldl (fun p o => countOption o.1 o.2 p) p).imgNumber =
        p.imgNumber +
          ((calls optstring s).filterMap fun o => if o.1 = 105 then o.2 else none).length := by
    intro s
    induction s using calls.induct optstring with
    | case1 s s' h =>
      intro p
      rw [calls_none h]
      rfl
    | case2 s o s' h ih =>
      intro p
      rw [calls_some h, List.foldl_cons, ih, countOption_imgNumber, List.filterMap_cons]
      by_cases hc : o.1 = 105
      · obtain ⟨c, optarg⟩ := o
        obtain rfl : c = 105 := hc
        obtain ⟨path, rfl⟩ := Option.isSome_iff_exists.mp (getopt_image h)
        rw [if_pos rfl, if_pos rfl, List.length_cons]
        omega
      · rw [if_neg hc, if_neg hc]
        rfl
  exact (hcount _ defaultOpt).trans (Nat.zero_add _)

/-- **The table** of `k` images is a block of `k` that nothing was written to. -/
theorem parse_stale {args : List CString} (hend : Stays args) (h : images args ≠ []) :
    parse w stale staleImg args = .ok (some { counted args with
      imgs := (List.range (images args).length).map staleImg }) := by
  rw [parse_eq w stale staleImg hend, counted_imgNumber, if_neg (mt List.length_eq_zero_iff.mp h)]

/-- What is loaded is what was in the block. -/
theorem loaded_of_loads {args : List CString} (hend : Stays args) (h : Loads w args) {j : Nat}
    {path : List UInt8} (hpath : (images args)[j]? = some path) : Loaded w path (staleImg j) := by
  obtain ⟨hlt, -⟩ := List.getElem?_eq_some_iff.mp hpath
  have hne : images args ≠ [] := List.ne_nil_of_length_pos (by omega)
  obtain ⟨p, hp, -, hj⟩ := h (fun _ => 0) staleImg
  obtain ⟨img, himg, hl⟩ := hj j path hpath
  rw [parse_stale w _ _ hend hne] at hp
  cases hp
  rw [List.getElem?_map, List.getElem?_range hlt] at himg
  cases himg
  exact hl

/-- What no file has the size of. -/
def noImg : ImgT := ⟨[], [], -1⟩

theorem not_loaded_noImg (path : List UInt8) : ¬ Loaded w path noImg := by
  rintro ⟨name, contents, -, -, -, hsize, -⟩
  have : (-1 : Int) = contents.length := hsize
  omega

/-- **No image is loaded** from any arguments that name one. -/
theorem parse_never_loads {args : List CString} (hend : Stays args) (h : images args ≠ []) :
    ¬ Loads w args := by
  intro hl
  obtain ⟨path, rest, hpaths⟩ := List.exists_cons_of_ne_nil h
  have hpath : (images args)[0]? = some path := by rw [hpaths]; rfl
  exact not_loaded_noImg w path (loaded_of_loads w (fun _ => noImg) hend hl hpath)

/-! ## Options as they are given -/

/-- An option with its argument in an element of its own. -/
inductive Given where
  | tty (arg : CString)
  | outputDir (arg : CString)
  | image (path : CString)

def Given.words : Given → List CString
  | .tty arg => [⟨[45, 116], by decide⟩, arg]
  | .outputDir arg => [⟨[45, 111], by decide⟩, arg]
  | .image path => [⟨[45, 105], by decide⟩, path]

def Given.path : Given → Option (List UInt8)
  | .image path => some path.bytes
  | _ => none

/-- **Any order**: the images of the arguments are those given. -/
theorem images_words (given : List Given) :
    images (given.flatMap Given.words) = given.filterMap Given.path := by
  induction given with
  | nil =>
    change (calls optstring .finish).filterMap _ = []
    rw [calls_none (getopt_end optstring)]
    rfl
  | cons g given ih =>
    rw [List.flatMap_cons, List.filterMap_cons, ← ih]
    unfold images
    cases g with
    | tty arg => rw [calls_some (o := (116, some arg.bytes)) rfl]; rfl
    | outputDir arg => rw [calls_some (o := (111, some arg.bytes)) rfl]; rfl
    | image path => rw [calls_some (o := (105, some path.bytes)) rfl]; rfl

/-- `getopt` reads them to the end. -/
theorem behind_words (given : List Given) :
    behind optstring ⟨[], given.flatMap Given.words⟩ = .finish := by
  induction given with
  | nil => exact behind_none (getopt_end optstring)
  | cons g given ih =>
    rw [List.flatMap_cons, ← ih]
    cases g with
    | tty arg => exact behind_some (o := (116, some arg.bytes)) rfl
    | outputDir arg => exact behind_some (o := (111, some arg.bytes)) rfl
    | image path => exact behind_some (o := (105, some path.bytes)) rfl

theorem stays_words (given : List Given) : Stays (given.flatMap Given.words) := by
  rw [Stays, behind_words, getopt_end]

/-- **One image**, of one byte. -/
def sampleName : CString := ⟨[97], by decide⟩

def sampleWorld : World where
  wordexp _ := some sampleName
  files path := if path = sampleName.bytes then some [7] else none
  opens _ := true

theorem sample_stays : Stays (Given.image sampleName).words := by
  have := stays_words [.image sampleName]
  rwa [List.flatMap_singleton] at this

theorem parse_never_loads_sample : ¬ Loads sampleWorld (Given.image sampleName).words :=
  parse_never_loads sampleWorld sample_stays (by
    have := images_words [.image sampleName]
    rw [List.flatMap_singleton] at this
    rw [this]
    exact List.cons_ne_nil _ _)

theorem sample_not_loaded :
    images (Given.image sampleName).words = [sampleName.bytes] ∧
      parse sampleWorld (fun _ => 0) (fun _ => noImg) (Given.image sampleName).words =
        .ok (some { defaultOpt with imgNumber := 1, imgs := [noImg] }) ∧
      ¬ Loads sampleWorld (Given.image sampleName).words := by
  have himages := images_words [.image sampleName]
  rw [List.flatMap_singleton] at himages
  have hpath : (images (Given.image sampleName).words)[0]? = some sampleName.bytes := by
    rw [himages]
    rfl
  refine ⟨himages, ?_, fun h => ?_⟩
  · rw [parse_stale _ _ _ sample_stays (by rw [himages]; exact List.cons_ne_nil _ _), himages]
    have hcount : counted (Given.image sampleName).words = { defaultOpt with imgNumber := 1 } := by
      unfold counted
      rw [calls_some (o := (105, some sampleName.bytes)) rfl, calls_none rfl]
      rfl
    rw [hcount]
    rfl
  · exact not_loaded_noImg _ _ (loaded_of_loads _ (fun _ => noImg) sample_stays h hpath)

/-! ## The body of the second pass -/

/-- **An image that is loaded** has its bytes in `name`, and in `file` what was in the block. -/
theorem loadImg_file {path : List UInt8} {p p' : OptT} {i i' : Nat}
    (h : loadImg w stale path p i = .ok (some (p', i'))) :
    ∃ name contents rest, w.wordexp path = some name ∧ w.files name.bytes = some contents ∧
      p'.imgs[i]? = some ⟨contents ++ rest, malloc contents.length stale, contents.length⟩ := by
  unfold loadImg at h
  split at h
  · cases h
  · next hi =>
    split at h
    · cases h
    · next name hname =>
      split at h
      · cases h
      · next contents hfile =>
        dsimp only at h
        split at h
        · cases h
        · obtain ⟨block, hb, h⟩ := bind_eq_ok h
          cases h
          unfold memcpy at hb
          split at hb
          · cases hb
            refine ⟨name, contents, (name.bytes ++ [0]).drop contents.length, hname, hfile, ?_⟩
            rw [List.getElem?_set_self (not_le.mp hi), List.take_zero, List.nil_append,
              Nat.zero_add]
          · cases hb

end DeepSpace.Master
