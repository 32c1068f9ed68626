import CudaOpenMp.Async.NonBlocking
import CudaOpenMp.Cipher.Agreement
import CudaOpenMp.Cipher.Decimal
import CudaOpenMp.Cipher.Eforce
import CudaOpenMp.Cipher.GpuHeap
import CudaOpenMp.Cipher.Hill
import CudaOpenMp.Cipher.Scores
import CudaOpenMp.Cipher.TlforceOptimal
import CudaOpenMp.FileIO.ThreadFileCopy
import CudaOpenMp.Gemm.FourWays
import CudaOpenMp.Gemm.SecondCuda
import CudaOpenMp.Gemm.TensorCore
import CudaOpenMp.Hash.KHash
import CudaOpenMp.Hash.Sha256
import CudaOpenMp.Image.CannyCpu
import CudaOpenMp.Image.CannyCuda
import CudaOpenMp.Image.SobelVec4
import CudaOpenMp.Image.SobelVideo
import CudaOpenMp.Image.Sobol
import CudaOpenMp.Image.SobolCompare
import CudaOpenMp.Matching.Pipeline
import CudaOpenMp.Matching.Template
import CudaOpenMp.Matching.TopMatch
import CudaOpenMp.Pthread.Condition
import CudaOpenMp.Pthread.ConditionSem
import CudaOpenMp.Pthread.ConditionSem1
import CudaOpenMp.Pthread.Deadlock
import CudaOpenMp.Pthread.IncDecCond
import CudaOpenMp.Pthread.RaceMutexCond
import CudaOpenMp.Pthread.ReadWriteLock
import CudaOpenMp.Pthread.ReaderWriter
import CudaOpenMp.Pthread.ReaderWriterLoops
import CudaOpenMp.Pthread.ThreadAdd
import CudaOpenMp.Search.Breaker
import CudaOpenMp.Search.GpuKernel
import CudaOpenMp.Search.Old
import CudaOpenMp.Search.TforceKeys
import CudaOpenMp.Search.Tlforce
import CudaOpenMp.Search.TlforceKeys
import CudaOpenMp.Search.Treeforce
import CudaOpenMp.Search.WorkSplit
import CudaOpenMp.Server.Client
import CudaOpenMp.Server.Finishing
import CudaOpenMp.Sort.PoeSort
import CudaOpenMp.Sort.Sequential
import CudaOpenMp.Vector.InnerProduct
import CudaOpenMp.Vector.RecursiveReduce
import CudaOpenMp.Vector.ReduceNeighbored
import CudaOpenMp.Vector.VecAdd
import CudaOpenMp.Video.ChromaKey
import CudaOpenMp.Video.Volume
