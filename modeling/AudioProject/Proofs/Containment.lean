import AudioProject.Proofs.Instantiation.Planning

/-
  Where a project puts what it writes. A plain name under a path adds one name to those on the way
  (`names_join`), so what is reached by plain names lies below, on paper (`Path.Reaches`) and on
  every tree (`Path.Reaches.located`). Media are reached from the assets directory and documents
  from the directory of their class, and from the names one can tell which they are:
  `paths_are_contained`.
-/

namespace AudioProject

open FileTree Text

namespace Path

variable {p q : Path} {names more : List String} {name : String}

/-! ## Names on the way -/

theorem names_join (p : Path) (hname : IsName name) : (p.join name).names = p.names ++ [name] := by
  obtain ⟨front, hjoin, hp⟩ := p.pieces_join hname.noSlash
  have hempty : isSilent "" = true := rfl
  unfold names
  rcases hp with hp | hp <;> rw [hjoin, hp] <;>
    simp [List.filter_append, hname.not_silent, hempty]

theorem names_descend (p : Path) (hnames : ∀ n ∈ names, IsName n) :
    (p.descend names).names = p.names ++ names := by
  induction names generalizing p with
  | nil => exact (List.append_nil _).symm
  | cons name names ih =>
    obtain ⟨hname, hnames⟩ := List.forall_mem_cons.1 hnames
    show ((p.join name).descend names).names = _
    rw [ih (p.join name) hnames, names_join p hname, List.append_assoc]
    rfl

theorem isAbsolute_descend (p : Path) (hnames : ∀ n ∈ names, IsName n) :
    (p.descend names).isAbsolute = p.isAbsolute := by
  induction names generalizing p with
  | nil => rfl
  | cons name names ih =>
    obtain ⟨hname, hnames⟩ := List.forall_mem_cons.1 hnames
    exact (ih (p.join name) hnames).trans (isAbsolute_join p hname.noSlash)

/-- `q` is what plain names lead to from `p`: none of them is a dot, and none goes up. -/
structure Reaches (p : Path) (names : List String) (q : Path) : Prop where
  plain : ∀ n ∈ names, IsName n
  onTheWay : q.names = p.names ++ names
  absolute : q.isAbsolute = p.isAbsolute
  /-- On every tree it leads to the place with these names below that of `p`, if anywhere. -/
  located : ∀ (t : FileTree) (base l : Location), t.walk p = .ok base → t.locate q = .ok l →
    l = base ++ names

theorem reaches_descend (p : Path) (hnames : ∀ n ∈ names, IsName n) :
    Reaches p names (p.descend names) where
  plain := hnames
  onTheWay := names_descend p hnames
  absolute := isAbsolute_descend p hnames
  located := fun _ _ _ hp hq => eq_of_locate_descend hnames hp hq

/-- `q` is `p` or below it, by its names. -/
def Within (p q : Path) : Prop := p.names <+: q.names

theorem Reaches.within_iff {root : Path} (hp : Reaches root names p) (hq : Reaches root more q) :
    Within p q ↔ names <+: more := by
  unfold Within
  rw [hp.onTheWay, hq.onTheWay]
  exact List.prefix_append_right_inj _

theorem Reaches.names_inj {root : Path} (hp : Reaches root names p) (hq : Reaches root more q)
    (hsame : p.names = q.names) : names = more := by
  rw [hp.onTheWay, hq.onTheWay] at hsame
  exact List.append_cancel_left hsame

end Path

namespace Layout

open AudioProject.Path Instantiation

variable {l : Layout}

/-! ## The directories of a project -/

theorem reaches_metadata (l : Layout) : Reaches l.root [metadataName] l.metadata :=
  reaches_descend _ fun _ hn => List.mem_singleton.1 hn ▸ isName_metadataName

theorem reaches_toolDir (l : Layout) : Reaches l.root [toolDirName] l.toolDir :=
  reaches_descend _ fun _ hn => List.mem_singleton.1 hn ▸ isName_toolDirName

/-! ## Media -/

/-- The place of a media file. -/
def mediaPath (l : Layout) (p : AssetPath) (name : String) : Path := (l.assetDir p).join name

variable {p q : AssetPath} {name other : String}

theorem plain_media (p : AssetPath) (hname : IsName name) :
    ∀ n ∈ p.components ++ [name], IsName n := by
  intro n hn
  rcases List.mem_append.1 hn with hn | hn
  · exact AssetPath.isName hn
  · exact List.mem_singleton.1 hn ▸ hname

theorem reaches_mediaPath (l : Layout) (p : AssetPath) (hname : IsName name) :
    Reaches l.assetsRoot (p.components ++ [name]) (l.mediaPath p name) := by
  have hdescend : l.mediaPath p name = l.assetsRoot.descend (p.components ++ [name]) :=
    (descend_concat _ _ _).symm
  rw [hdescend]
  exact reaches_descend _ (plain_media p hname)

theorem reaches_mediaPath_root (h : Settings.checkAssetsDir l.assetsDir = .ok ()) (p : AssetPath)
    (hname : IsName name) :
    Reaches l.root (assetsNames l ++ p.components ++ [name]) (l.mediaPath p name) := by
  have hdescend : l.mediaPath p name =
      l.root.descend (assetsNames l ++ p.components ++ [name]) := by
    rw [descend_concat, ← assetDir_eq h]
    rfl
  rw [hdescend]
  refine reaches_descend _ ?_
  rw [List.append_assoc]
  exact ((isAssets_of_check h).append (plain_media p hname)).plain

/-- A name that media do not begin with leads to a directory that holds none of them. -/
theorem not_within_mediaPath (h : Settings.checkAssetsDir l.assetsDir = .ok ()) (p : AssetPath)
    (hname : IsName name) {dir : Path} (hdir : Reaches l.root [other] dir)
    (hother : (assetsNames l).head? ≠ some other) : ¬ Within dir (l.mediaPath p name) := by
  rw [hdir.within_iff (reaches_mediaPath_root h p hname)]
  rintro ⟨rest, hrest⟩
  obtain ⟨first, others, hfirst⟩ := List.exists_cons_of_ne_nil (isAssets_of_check h).ne_nil
  rw [hfirst] at hrest hother
  exact hother (congrArg some (List.cons.inj hrest).1.symm)

theorem mediaPath_inj (hname : IsName name) (hother : IsName other)
    (hsame : (l.mediaPath p name).names = (l.mediaPath q other).names) : p = q ∧ name = other := by
  have hnames := (reaches_mediaPath l p hname).names_inj (reaches_mediaPath l q hother) hsame
  obtain ⟨hcomponents, hlast⟩ := List.append_inj' hnames rfl
  exact ⟨AssetPath.ext hcomponents, (List.cons.inj hlast).1⟩

/-! ## Documents -/

theorem reaches_document (l : Layout) {dir : String} (hdir : IsName dir) (id : ObjectId) :
    Reaches l.root (documentNames dir id) ((l.documentDir dir).join id.fileName) :=
  reaches_descend _ (plain_documentNames hdir id)

theorem document_inj {dir dir' : String} (hdir : IsName dir) (hdir' : IsName dir')
    {id id' : ObjectId} (hsame : ((l.documentDir dir).join id.fileName).names =
      ((l.documentDir dir').join id'.fileName).names) : dir = dir' ∧ id = id' := by
  have hnames := (reaches_document l hdir id).names_inj (reaches_document l hdir' id') hsame
  obtain ⟨rfl, hid⟩ := List.cons.inj (List.cons.inj hnames).2
  exact ⟨rfl, ObjectId.fileName_inj (List.cons.inj hid).1⟩

/-! ## All places -/

/-- Where a media file goes: below the assets directory, and nowhere near documents, journals and
the lock. -/
structure HoldsMedia (l : Layout) (p : AssetPath) (name : String) (dest : Path) : Prop where
  below : Reaches l.assetsRoot (p.components ++ [name]) dest
  plain : Reaches l.root (assetsNames l ++ p.components ++ [name]) dest
  not_metadata : ¬ Within l.metadata dest
  not_tool : ¬ Within l.toolDir dest

theorem holdsMedia (h : Settings.checkAssetsDir l.assetsDir = .ok ()) (p : AssetPath)
    (hname : IsName name) : HoldsMedia l p name (l.mediaPath p name) where
  below := reaches_mediaPath l p hname
  plain := reaches_mediaPath_root h p hname
  not_metadata :=
    not_within_mediaPath h p hname (reaches_metadata l) (isAssets_of_check h).not_documents
  not_tool := not_within_mediaPath h p hname (reaches_toolDir l) (isAssets_of_check h).not_tool

theorem isName_of_mediaName {source : Path} (h : mediaName source = .ok name) : IsName name :=
  isName_of_fileName? (mediaName_eq_ok.1 h)

/-- Every media file goes below the assets directory, at a place of its own, and every document into
the directory of its class, whatever the directory of the project, the asset folder, the media file
and the id are. -/
theorem paths_are_contained (l : Layout) :
    (Settings.checkAssetsDir l.assetsDir = .ok () → ∀ p source name,
      mediaName source = .ok name → HoldsMedia l p name (l.mediaPath p name)) ∧
    (∀ s t earlier m c, s.layout = l → planCopy s t earlier m = .ok c →
      ∃ name, mediaName m.source = .ok name ∧ c.dest = l.mediaPath m.target name) ∧
    (∀ p q source source' name name', mediaName source = .ok name →
      mediaName source' = .ok name' →
      (l.mediaPath p name).names = (l.mediaPath q name').names → p = q ∧ name = name') ∧
    (∀ c dir id, c.directory? = some dir → ∃ path, l.objectPath? c id = some path ∧
      Reaches (l.documentDir dir) [id.fileName] path ∧
      Reaches l.root [metadataName, dir, id.fileName] path) ∧
    (∀ c c' dir dir' id id' path path', c.directory? = some dir → c'.directory? = some dir' →
      l.objectPath? c id = some path → l.objectPath? c' id' = some path' →
      path.names = path'.names → dir = dir' ∧ id = id') := by
  refine ⟨fun h p source name hname => holdsMedia h p (isName_of_mediaName hname), ?_, ?_, ?_, ?_⟩
  · rintro s t earlier m c rfl hplan
    obtain ⟨name, hname, hdest⟩ := (plansCopy_of_planCopy hplan).dest
    exact ⟨name, mediaName_eq_ok.2 hname, hdest⟩
  · intro p q source source' name name' hname hname'
    exact mediaPath_inj (isName_of_mediaName hname) (isName_of_mediaName hname')
  · intro c dir id hdir
    have hplain := ObjectClass.isName_directory hdir
    refine ⟨_, congrArg (Option.map _) hdir, ?_, reaches_document l hplain id⟩
    exact reaches_descend _ fun n hn => List.mem_singleton.1 hn ▸ id.isName_fileName
  · intro c c' dir dir' id id' path path' hdir hdir' hpath hpath'
    obtain rfl := Option.some.inj ((congrArg (Option.map _) hdir).symm.trans hpath)
    obtain rfl := Option.some.inj ((congrArg (Option.map _) hdir').symm.trans hpath')
    exact document_inj (ObjectClass.isName_directory hdir) (ObjectClass.isName_directory hdir')

/-! ### A winding layout -/

/-- A project behind a way up, with media in a directory that is called like that of documents. -/
def winding : Layout := ⟨⟨"/p/../q/"⟩, "Sound/Metadata"⟩

/-- Three dots are a name. -/
def dotted : AssetPath := ⟨["...", ".eventforge"], by decide⟩

/-- Two dots are no name, but they are an id. -/
def dots : ObjectId := ⟨"..", by decide⟩

theorem paths_are_contained_winding :
    Settings.checkAssetsDir winding.assetsDir = .ok () ∧
      mediaName ⟨"takes/../one.xml/./"⟩ = .ok "one.xml" ∧
      winding.mediaPath dotted "one.xml" =
        ⟨"/p/../q/Sound/Metadata/.../.eventforge/one.xml"⟩ ∧
      HoldsMedia winding dotted "one.xml" (winding.mediaPath dotted "one.xml") ∧
      (winding.mediaPath dotted "one.xml").names ≠ (winding.mediaPath .root "one.xml").names ∧
      ∃ path, winding.objectPath? .event dots = some path ∧
        Reaches winding.root [metadataName, "Event", "...xml"] path := by
  obtain ⟨hmedia, -, hdistinct, hdocuments, -⟩ := paths_are_contained winding
  have hcheck : Settings.checkAssetsDir winding.assetsDir = .ok () := by decide +kernel
  have hname : mediaName ⟨"takes/../one.xml/./"⟩ = .ok "one.xml" := by decide +kernel
  obtain ⟨path, hpath, -, hreaches⟩ := hdocuments .event "Event" dots rfl
  refine ⟨hcheck, hname, by decide +kernel, hmedia hcheck _ _ _ hname, fun hsame => ?_,
    path, hpath, hreaches⟩
  exact absurd (hdistinct _ _ _ _ _ _ hname hname hsame).1 (by decide)

end Layout

end AudioProject
