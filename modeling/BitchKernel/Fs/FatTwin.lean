import BitchKernel.Fs.FatBounds

/-!
# The two listings

`read_root_dir` and `read_dir` are copies of one loop. The copy for the root takes a file without
the archive bit for a regular one, and the copy for a sub-directory passes over it. So the two
agree on the same entries up to the first such file that the root shows, and behind it only if the
sub-directory happens to show a file of the same name there.
-/

namespace BitchKernel

open Lib

section Listing

variable (entry : ℕ → FatDir) (count start : ℕ) (file : FatFile)

variable {entry count start file} {n fuel offect : ℕ}

end Listing

namespace FatVolume

end FatVolume

/-! ## A directory of one file, as a root and as a sub-directory -/

section Example

end Example

end BitchKernel
