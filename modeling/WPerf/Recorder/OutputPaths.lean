import WPerf.Library.Text
import WPerf.Recorder.Recorder

/-!
# Where the output files lie

The recorder makes a directory for each event instance and each device list,
and opens a file `output` for it. The two names are printed into a buffer of
100 bytes by different templates: the directory gets a slash in front, and only
the file has more text behind the name that can be cut off.
-/

namespace WPerf.Recorder

open WPerf.Library

set_option autoImplicit false

def maxPathLen : Nat := 100

/-- What `snprintf(dir, size, ...)` leaves of a text. A C string is the list of
its bytes, each as a character. -/
def snprintf (size : Nat) (text : List Char) : List Char := text.take (size - 1)

def createInstanceOutput (base name : List Char) : List Char :=
  snprintf maxPathLen ('/' :: base ++ '/' :: name)

def getInstanceOutput (base name : List Char) : List Char :=
  snprintf maxPathLen (base ++ '/' :: name ++ "/output".toList)

structure Output where
  dir : List Char
  file : List Char
deriving DecidableEq, Repr

/-- The two calls that the body of `setup_event_instances` and
`__setup_ioworkers` share. -/
def setupOutput (outputDir name : List Char) : Output :=
  ⟨createInstanceOutput outputDir name, getInstanceOutput outputDir name⟩

def setupEventInstances (outputDir : List Char) : List Output :=
  instanceEvents.map fun pair => setupOutput outputDir pair.1.toList

def setupIoworkers (outputDir : List Char) (diskList nicList : Option (List Char)) : List Output :=
  (diskList.toList ++ nicList.toList).map (setupOutput outputDir)

/-- The file is `output` in the directory, repeated slashes aside. -/
def Output.InDirectory (output : Output) : Prop :=
  Text.squeeze '/' output.file = Text.squeeze '/' (output.dir ++ "/output".toList)

def Rooted (dir : List Char) : Prop := ∀ c ∈ dir.head?, c = '/'

theorem path_head_iff (base name : List Char) :
    (base ++ '/' :: name).head? = some '/' ↔ Rooted base := by
  unfold Rooted
  cases base with
  | nil => simp
  | cons c rest => simp

theorem whole_file (base name : List Char) (fits : base.length + name.length ≤ 91) :
    getInstanceOutput base name = base ++ '/' :: name ++ "/output".toList := by
  apply List.take_of_length_le
  simp only [List.length_append, List.length_cons, String.length_toList]
  change base.length + (name.length + 1) + 7 ≤ 99
  omega

theorem whole_dir (base name : List Char) (fits : base.length + name.length ≤ 91) :
    createInstanceOutput base name = '/' :: (base ++ '/' :: name) := by
  apply List.take_of_length_le
  simp only [List.length_append, List.length_cons]
  change base.length + 1 + (name.length + 1) ≤ 99
  omega

/-- A file name that fits in the buffer is in the directory exactly when the
slash in front of the directory repeats one. -/
theorem whole_name_in_directory_iff (base name : List Char)
    (fits : base.length + name.length ≤ 91) :
    (setupOutput base name).InDirectory ↔ Rooted base := by
  rw [← path_head_iff base name]
  unfold Output.InDirectory setupOutput
  rw [whole_file base name fits, whole_dir base name fits, List.cons_append]
  constructor
  · intro same
    have heads := congrArg List.head? same
    rw [Text.head?_squeeze, Text.head?_squeeze, List.head?_append_of_ne_nil _ (by simp)] at heads
    exact heads
  · intro rooted
    obtain ⟨rest, path⟩ := List.head?_eq_some_iff.mp rooted
    rw [path, List.cons_append, Text.squeeze_cons_cons_self]

def solidLength (text : List Char) : Nat := (text.filter (· ≠ '/')).length

theorem solid_length_append (front back : List Char) :
    solidLength (front ++ back) = solidLength front + solidLength back := by
  unfold solidLength
  rw [List.filter_append, List.length_append]

theorem squeeze_solid_length (text : List Char) :
    solidLength (Text.squeeze '/' text) = solidLength text :=
  congrArg List.length (Text.filter_squeeze '/' text)

theorem cut_path_shorter (path : List Char) (long : 92 < path.length) :
    solidLength (path.take 99) + solidLength ("/output".toList.take (99 - path.length)) <
      solidLength (path.take 98) + solidLength "/output".toList := by
  have output : solidLength "/output".toList = 6 := by decide
  by_cases whole : path.length ≤ 98
  · -- a part of `/output` remains
    have part : solidLength ("/output".toList.take (99 - path.length)) ≤ 5 := by
      have nested : "/output".toList.take (99 - path.length) =
          ("/output".toList.take 6).take (99 - path.length) := by
        rw [List.take_take, Nat.min_eq_left (by omega)]
      rw [nested]
      exact ((List.take_sublist _ _).filter _).length_le
    rw [List.take_of_length_le (Nat.le_succ_of_le whole), List.take_of_length_le whole, output]
    omega
  · -- the path itself is cut, one character later in the file name
    have none : 99 - path.length = 0 := by omega
    have last : solidLength path[98]?.toList ≤ 1 := by
      have length : path[98]?.toList.length ≤ 1 := by
        cases path[98]? <;> simp
      exact (List.length_filter_le _ _).trans length
    rw [none, List.take_add_one, solid_length_append, output, List.take_zero]
    change _ + 0 < _
    omega

/-- A file name that is cut off is too short to be in the directory. -/
theorem cut_name_not_in_directory (base name : List Char)
    (long : 91 < base.length + name.length) : ¬(setupOutput base name).InDirectory := by
  intro same
  have path : (base ++ '/' :: name).length = base.length + name.length + 1 := by
    rw [List.length_append, List.length_cons, Nat.add_assoc]
  have shorter := cut_path_shorter (base ++ '/' :: name) (by omega)
  have file : (setupOutput base name).file =
      (base ++ '/' :: name).take 99 ++ "/output".toList.take (99 - (base ++ '/' :: name).length) :=
    List.take_append
  have dir : (setupOutput base name).dir = ['/'] ++ (base ++ '/' :: name).take 98 := rfl
  have counts := congrArg solidLength same
  rw [squeeze_solid_length, squeeze_solid_length, file, dir, solid_length_append,
    solid_length_append, solid_length_append, show solidLength ['/'] = 0 from by decide,
    Nat.zero_add] at counts
  omega

theorem in_directory_iff (base name : List Char) :
    (setupOutput base name).InDirectory ↔ Rooted base ∧ base.length + name.length ≤ 91 := by
  by_cases fits : base.length + name.length ≤ 91
  · rw [whole_name_in_directory_iff base name fits, and_iff_left fits]
  · exact iff_of_false (cut_name_not_in_directory base name (Nat.lt_of_not_le fits))
      fun both => fits both.2

theorem files_differ (base first second : List Char) (distinct : first ≠ second)
    (firstFits : base.length + first.length ≤ 91) (secondFits : base.length + second.length ≤ 91) :
    (setupOutput base first).file ≠ (setupOutput base second).file := by
  intro same
  have files : getInstanceOutput base first = getInstanceOutput base second := same
  rw [whole_file base first firstFits, whole_file base second secondFits] at files
  have names := List.append_cancel_left (List.append_cancel_right files)
  exact distinct (List.cons.inj names).2

/-- The outputs of two names lie in their own directories, in two files,
exactly when the output directory starts with a slash (or is empty) and the
names of both files fit in the buffer. -/
theorem outputs_land_iff (outputDir first second : List Char) (distinct : first ≠ second) :
    ((setupOutput outputDir first).InDirectory ∧ (setupOutput outputDir second).InDirectory ∧
        (setupOutput outputDir first).file ≠ (setupOutput outputDir second).file) ↔
      Rooted outputDir ∧ outputDir.length + first.length ≤ 91 ∧
        outputDir.length + second.length ≤ 91 := by
  rw [in_directory_iff, in_directory_iff]
  constructor
  · rintro ⟨⟨rooted, firstFits⟩, ⟨_, secondFits⟩, _⟩
    exact ⟨rooted, firstFits, secondFits⟩
  · rintro ⟨rooted, firstFits, secondFits⟩
    exact ⟨⟨rooted, firstFits⟩, ⟨rooted, secondFits⟩,
      files_differ outputDir first second distinct firstFits secondFits⟩

theorem default_outputs_land :
    "switch".toList ≠ "softirq".toList ∧
      (((setupOutput "/tmp/wperf".toList "switch".toList).InDirectory ∧
          (setupOutput "/tmp/wperf".toList "softirq".toList).InDirectory ∧
          (setupOutput "/tmp/wperf".toList "switch".toList).file ≠
            (setupOutput "/tmp/wperf".toList "softirq".toList).file) ↔
        Rooted "/tmp/wperf".toList ∧
          "/tmp/wperf".toList.length + "switch".toList.length ≤ 91 ∧
          "/tmp/wperf".toList.length + "softirq".toList.length ≤ 91) :=
  ⟨by decide, outputs_land_iff "/tmp/wperf".toList "switch".toList "softirq".toList (by decide)⟩

theorem relative_output_misses_directory :
    "switch".toList ≠ "softirq".toList ∧
      (setupOutput "out".toList "switch".toList).dir = "/out/switch".toList ∧
      (setupOutput "out".toList "switch".toList).file = "out/switch/output".toList ∧
      ¬((setupOutput "out".toList "switch".toList).InDirectory ∧
        (setupOutput "out".toList "softirq".toList).InDirectory ∧
        (setupOutput "out".toList "switch".toList).file ≠
          (setupOutput "out".toList "softirq".toList).file) := by
  refine ⟨by decide, by decide, by decide, ?_⟩
  rintro ⟨inside, _⟩
  rw [in_directory_iff] at inside
  exact absurd (inside.1 'o' rfl) (by decide)

def recordedNames (diskList nicList : Option (List Char)) : List (List Char) :=
  instanceEvents.map (fun pair => pair.1.toList) ++ (diskList.toList ++ nicList.toList)

/-- A whole recording keeps its outputs apart in their directories exactly when
the output directory starts with a slash (or is empty) and every name fits. -/
theorem recording_lands_iff (outputDir : List Char) (diskList nicList : Option (List Char))
    (distinct : (recordedNames diskList nicList).Nodup) :
    ((∀ output ∈ setupEventInstances outputDir ++ setupIoworkers outputDir diskList nicList,
          output.InDirectory) ∧
        (setupEventInstances outputDir ++ setupIoworkers outputDir diskList nicList).Pairwise
          fun first second => first.file ≠ second.file) ↔
      Rooted outputDir ∧
        ∀ name ∈ recordedNames diskList nicList, outputDir.length + name.length ≤ 91 := by
  have outputs : setupEventInstances outputDir ++ setupIoworkers outputDir diskList nicList =
      (recordedNames diskList nicList).map (setupOutput outputDir) := by
    unfold setupEventInstances setupIoworkers recordedNames
    simp only [List.map_append, List.map_map, Function.comp_def]
  rw [outputs, List.forall_mem_map, List.pairwise_map]
  constructor
  · rintro ⟨inside, _⟩
    have first := List.mem_append_left (diskList.toList ++ nicList.toList)
      (List.mem_cons_self (a := "switch".toList) (l := ["softirq".toList]))
    exact ⟨((in_directory_iff outputDir _).mp (inside _ first)).1,
      fun name member => ((in_directory_iff outputDir name).mp (inside name member)).2⟩
  · rintro ⟨rooted, fit⟩
    refine ⟨fun name member => (in_directory_iff outputDir name).mpr ⟨rooted, fit name member⟩, ?_⟩
    refine List.Pairwise.imp_of_mem ?_ distinct
    intro first second firstMember secondMember apart
    exact files_differ outputDir first second apart (fit first firstMember)
      (fit second secondMember)

end WPerf.Recorder
